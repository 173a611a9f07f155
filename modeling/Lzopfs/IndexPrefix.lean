import Lzopfs.Bzip2File
import Lzopfs.GzipFile
import Lzopfs.IndexRoot

/-!
# An index file that was not written to its end

`loadIndex` builds an index only when there is no index file, and does not stop what
`readIndex` throws. What a writer leaves that was interrupted is read as far as it goes.
-/

namespace Lzopfs

open Verify

namespace IndexedCompFile

variable {β : Type}

/-- Without an index file, the file comes to a list of blocks, and leaves these bytes as
its index. -/
structure Saved (file : IndexedCompFile β) (fs : FileSystem) (fh : FileHandle) (bs : List β)
    (data : Buffer) : Prop where
  absent : fs.contents file.indexPath = none
  load : ∃ fuel fs', file.loadIndex fuel fs fh = some (.ok (bs, fs')) ∧
    fs'.contents file.indexPath = some data

/-- With those bytes as its index, the file comes to the same list, and does not throw. -/
def Rebuilt (file : IndexedCompFile β) (fs : FileSystem) (fh : FileHandle) (bs : List β)
    (part : Buffer) : Prop :=
  ∃ fuel fs', file.loadIndex fuel (fs.store file.indexPath part) fh = some (.ok (bs, fs'))

/-- The formats that keep an index. -/
inductive IsFormat : ∀ {β : Type}, IndexedCompFile β → Prop where
  | lzop (lzo : LzopFile.Lzo) (mPath indexPath : String) (mFlags : UInt32) :
      IsFormat (LzopFile.file lzo mPath indexPath mFlags)
  | gzip {z : Zlib} (wild : Reader z → UInt8) (mPath indexPath : String) (mBlockFactor : Nat) :
      IsFormat (GzipFile.file wild mPath indexPath mBlockFactor)
  | bzip2 (bz : Bzlib) (before : Nat → UInt8) (indexPath : String) :
      IsFormat (Bzip2File.file bz before indexPath)

variable {file : IndexedCompFile β} {fs fs' : FileSystem} {fh : FileHandle} {bs : List β}
  {data part : Buffer}

/-- All of them read their records back. -/
theorem IsFormat.exists_codec (h : file.IsFormat) : Nonempty file.Codec := by
  cases h with
  | lzop lzo mPath indexPath mFlags => exact ⟨LzopFile.codec lzo mPath indexPath mFlags⟩
  | gzip wild mPath indexPath mBlockFactor =>
    exact ⟨GzipFile.codec wild mPath indexPath mBlockFactor⟩
  | bzip2 bz before indexPath => exact ⟨Bzip2File.codec bz before indexPath⟩

/-- The index that is saved is the one of the list. -/
theorem Codec.data_eq (c : file.Codec) (h : file.saveIndex fs bs = .ok fs')
    (hdata : fs'.contents file.indexPath = some data) : data = c.encodeIndex bs := by
  rw [saveIndex] at h
  split at h
  · rw [c.run_writeIndex bs] at h
    cases h
    rw [FileSystem.contents_store] at hdata
    cases hdata
    rfl
  · cases h

theorem Codec.saved_eq (c : file.Codec) (h : file.Saved fs fh bs data) :
    data = c.encodeIndex bs := by
  obtain ⟨habsent, fuel, fs', hload, hdata⟩ := h
  rw [loadIndex, tryIndex, habsent] at hload
  obtain ⟨built, -, hsave⟩ := Option.map_eq_some_iff.mp hload
  cases built with
  | error e => cases hsave
  | ok bs' =>
      change (file.saveIndex fs bs' >>= fun fs => pure (bs', fs) :
        Except Exn (List β × FileSystem)) = .ok (bs, fs') at hsave
      cases hsaved : file.saveIndex fs bs' with
      | error e =>
          rw [hsaved] at hsave
          cases hsave
      | ok fs₁ =>
          rw [hsaved] at hsave
          cases hsave
          exact c.data_eq hsaved hdata

/-- No part of an index but all of it leads to the list. -/
theorem Codec.not_rebuilt (c : file.Codec) (hsaved : file.Saved fs fh bs data)
    (hpart : part <+: data) (hne : part ≠ data) : ¬ file.Rebuilt fs fh bs part := by
  rintro ⟨fuel, fs', hload⟩
  rw [c.saved_eq hsaved] at hpart hne
  have htake : part = (c.encodeIndex bs).take part.length := List.prefix_iff_eq_take.mp hpart
  have hlt : part.length < (c.encodeIndex bs).length := by
    apply Nat.lt_of_le_of_ne hpart.length_le
    exact fun heq => hne (hpart.eq_of_length heq)
  have hstored : (fs.store file.indexPath part).contents file.indexPath =
      some ((c.encodeIndex bs).take part.length) := by
    rw [FileSystem.contents_store, ← htake]
  obtain ⟨e, he⟩ | ⟨bs', hread, hshort⟩ := c.tryIndex_prefix hlt hstored
  · rw [loadIndex, he] at hload
    cases hload
  · rw [loadIndex, hread] at hload
    cases hload
    exact absurd hshort (Nat.lt_irrefl _)

/-- Whatever the format, a partial index file is never made up for. -/
theorem partial_index_kept (hformat : file.IsFormat) (hsaved : file.Saved fs fh bs data)
    (hpart : part <+: data) (hne : part ≠ data) : ¬ file.Rebuilt fs fh bs part := by
  obtain ⟨c⟩ := hformat.exists_codec
  exact c.not_rebuilt hsaved hpart hne

/-- The file of one stored block. -/
def stored : IndexedCompFile Block := (lzopSource "/a/x.lzo".toList []).file

def noIndex : FileSystem where
  contents _ := none
  writable _ := true

theorem saved_stored : ∃ data, stored.Saved noIndex (storedHandle "/a/x.lzo".toList)
    [⟨2, 2, 0, 50⟩] data ∧ data ≠ [] := by
  let c : stored.Codec := LzopFile.codec _ _ _ _
  have hsave : stored.saveIndex noIndex [⟨2, 2, 0, 50⟩] =
      .ok (noIndex.store stored.indexPath (c.encodeIndex [⟨2, 2, 0, 50⟩])) := by
    have hwrite := @Codec.run_writeIndex _ _ c stored.indexPath [⟨2, 2, 0, 50⟩]
    apply (if_pos (show noIndex.writable stored.indexPath = true from rfl)).trans
    rw [hwrite]
    rfl
  have hload : stored.loadIndex 0 noIndex (storedHandle "/a/x.lzo".toList) =
      some (.ok ([⟨2, 2, 0, 50⟩],
        noIndex.store stored.indexPath (c.encodeIndex [⟨2, 2, 0, 50⟩]))) := by
    have hbuild : stored.buildIndex 0 [] (storedHandle "/a/x.lzo".toList) =
        some (.ok [⟨2, 2, 0, 50⟩]) := buildIndex_storedHandle _ _
    rw [loadIndex]
    show (stored.buildIndex 0 [] _).map _ = _
    rw [hbuild]
    show some (do
      let fs ← stored.saveIndex noIndex [⟨2, 2, 0, 50⟩]
      return ([(⟨2, 2, 0, 50⟩ : Block)], fs)) = _
    rw [hsave]
    rfl
  refine ⟨_, ⟨rfl, 0, _, hload, FileSystem.contents_store _ _ _⟩, ?_⟩
  intro hnil
  have hlen := congrArg List.length hnil
  rw [Codec.encodeIndex, List.length_append, length_beBytes] at hlen
  simp at hlen

/-- The empty index file of a writer that got no further. -/
theorem empty_index_kept : ¬ stored.Rebuilt noIndex (storedHandle "/a/x.lzo".toList)
    [⟨2, 2, 0, 50⟩] [] := by
  obtain ⟨data, hsaved, hne⟩ := saved_stored
  exact partial_index_kept (.lzop _ _ _ _) hsaved List.nil_prefix hne.symm

theorem empty_index_throws : ¬ ∀ (fs : FileSystem) (fh : FileHandle) (bs : List Block)
    (data part : Buffer), stored.Saved fs fh bs data → part <+: data → part ≠ data →
      stored.Rebuilt fs fh bs part := by
  intro hall
  obtain ⟨data, hsaved, hne⟩ := saved_stored
  obtain ⟨fuel, fs', hload⟩ := hall _ _ _ data [] hsaved List.nil_prefix hne.symm
  have hread : (stored.readIndex []).run ⟨stored.indexPath, [], 0⟩ =
      .error (.eof stored.indexPath) := by
    apply FileLoop.run_error
    rfl
  rw [loadIndex, tryIndex, FileSystem.contents_store] at hload
  dsimp only at hload
  rw [hread] at hload
  cases hload

end IndexedCompFile

end Lzopfs
