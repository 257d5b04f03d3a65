import Rullama.Opfs.Download

/-! # A download has a prefix of its blob

What is on disk is a prefix of the blob at every moment, and the whole blob when the download
returns, as long as no stream goes on after a short write.
-/
namespace Rullama.Opfs
open Transition (Machine)

namespace Download
variable {d : Downloader} {blob : Bytes} {s : Download}

/-- A prefix of the blob is on disk, and the blob when the download has returned. -/
def Intact (blob : Bytes) (s : Download) : Prop :=
  s.file <+: blob ∧ ∀ n fromCache, s.phase = .returned n fromCache → s.file = blob

/-- A stream goes on, or ends, only when all its bytes so far are stored, and the offset
passes the declared total only with the end of the blob. -/
def Unbroken (d : Downloader) (blob : Bytes) (s : Download) : DownloadEvent → Prop
  | .chunk _ written =>
    match s.phase with
    | .reading offset _ total pos => offset = pos ∧
        (d.overran total (offset + written) = true → offset + written = blob.length)
    | _ => True
  | .drained =>
    match s.phase with
    | .reading offset _ _ pos => offset = pos
    | _ => True
  | _ => True

/-- The offset is the length of what is on disk. -/
def Aligned (blob : Bytes) (s : Download) : Prop :=
  s.file <+: blob ∧
    match s.phase with
    | .fetching offset _ => offset = s.file.length
    | .reading offset _ _ _ => offset = s.file.length
    | .returned _ _ => s.file = blob
    | .thrown => True

theorem Aligned.intact (h : s.Aligned blob) : s.Intact blob := by
  refine ⟨h.1,fun n fromCache hphase => ?_⟩
  have := h.2
  rwa [hphase] at this

theorem Aligned.goOn {phase : Phase} (h : { s with phase := phase }.Aligned blob) :
    (s.goOn d phase).Aligned blob := by
  unfold Download.goOn
  split
  · exact ⟨h.1,trivial⟩
  · exact h

theorem usable_le (d : Downloader) (expectedSize size : ℕ) : d.usable expectedSize size ≤ size := by
  cases d with
  | downloadToOpfs => exact Nat.le_refl _
  | doDownload =>
    unfold Downloader.usable
    simp only
    split
    · exact Nat.zero_le _
    · exact Nat.le_refl _

theorem existingOpfsSize_le (file : Bytes) (readable skipMagic : Bool) :
    existingOpfsSize file readable skipMagic ≤ file.length := by
  unfold existingOpfsSize
  split
  · exact Nat.zero_le _
  · split
    · exact Nat.le_refl _
    · split
      · split
        · exact Nat.le_refl _
        · exact Nat.zero_le _
      · exact Nat.le_refl _

theorem aligned_start {file : Bytes} (hfile : file <+: blob) {expectedSize : ℕ}
    {readable skipMagic : Bool} (hexpected : 0 < expectedSize → expectedSize < blob.length →
      d.usable expectedSize (existingOpfsSize file readable skipMagic) < expectedSize) :
    (start d file expectedSize readable skipMagic).Aligned blob := by
  have hsize : d.usable expectedSize (existingOpfsSize file readable skipMagic) ≤ file.length :=
    (usable_le ..).trans (existingOpfsSize_le ..)
  have hle := hfile.length_le
  unfold start
  simp only
  split
  · refine ⟨hfile,?_⟩
    exact hfile.eq_of_length (by omega)
  · refine ⟨?_,?_⟩
    · rw [Bytes.truncate_of_le hsize]
      exact (List.take_prefix _ _).trans hfile
    · exact (Bytes.length_truncate ..).symm

/-- A chunk that comes where the file ends. -/
theorem Aligned.store (h : s.Aligned blob) {offset attempt total n written : ℕ}
    (hphase : s.phase = .reading offset attempt total offset) (hn : offset + n ≤ blob.length)
    (hwritten : written ≤ n)
    (hoverran : d.overran total (offset + written) = true → offset + written = blob.length) :
    (s.store d blob offset attempt total offset n written).Aligned blob := by
  obtain ⟨hpre,hoffset⟩ := h
  rw [hphase] at hoffset
  have hchunk : ((blob.drop offset).take n).take written =
      (blob.drop s.file.length).take written := by
    rw [List.take_take,Nat.min_eq_left hwritten,hoffset]
  have hfile : s.file.writeAt (((blob.drop offset).take n).take written) offset =
      s.file ++ (blob.drop s.file.length).take written := by
    rw [hchunk,hoffset,Bytes.writeAt_length]
  have hlength : (s.file ++ (blob.drop s.file.length).take written).length = offset + written := by
    rw [List.length_append,List.length_take,List.length_drop]
    omega
  have hgrown := prefix_append_slice hpre written
  unfold Download.store
  simp only [hfile]
  split
  · rename_i hover
    exact ⟨hgrown,hgrown.eq_of_length (hlength.trans (hoverran hover))⟩
  · exact Aligned.goOn ⟨hgrown,hlength.symm⟩

theorem Aligned.next (h : s.Aligned blob) {e : DownloadEvent} (he : s.enabled d blob e)
    (hc : s.Unbroken d blob e) : (s.next d blob e).Aligned blob := by
  obtain ⟨file,phase,cancelled⟩ := s
  obtain ⟨hpre,hphase⟩ := h
  cases e with
  | cancel => exact ⟨hpre,hphase⟩
  | response status contentRange contentLength =>
    cases phase with
    | fetching offset attempt =>
      have hoffset : offset = file.length := hphase
      unfold Download.next Download.respond
      simp only
      split
      · rename_i hstatus
        have hlen := he.1 hstatus
        exact ⟨hpre,hpre.eq_of_length (by have := hpre.length_le; omega)⟩
      · split
        · exact ⟨hpre,trivial⟩
        · refine Aligned.goOn ?_
          unfold resumeAt
          by_cases hrestart : restarts status offset
          · rw [if_pos hrestart,if_pos hrestart,Bytes.truncate_zero]
            exact ⟨List.nil_prefix,rfl⟩
          · rw [if_neg hrestart,if_neg hrestart]
            exact ⟨hpre,hoffset⟩
    | _ => exact ⟨hpre,hphase⟩
  | fetchFailed =>
    cases phase with
    | fetching offset attempt => exact ⟨hpre,trivial⟩
    | _ => exact ⟨hpre,hphase⟩
  | chunk n written =>
    cases phase with
    | reading offset attempt total pos =>
      obtain ⟨hpos,hoverran⟩ := hc
      subst hpos
      have hal : Aligned blob ⟨file,.reading offset attempt total offset,cancelled⟩ :=
        ⟨hpre,hphase⟩
      exact hal.store rfl he.1 he.2 hoverran
    | _ => exact ⟨hpre,hphase⟩
  | drained =>
    cases phase with
    | reading offset attempt total pos =>
      have hpos : offset = pos := hc
      have hend : blob.length ≤ pos := he
      have hoffset : offset = file.length := hphase
      exact ⟨hpre,hpre.eq_of_length (by have := hpre.length_le; omega)⟩
    | _ => exact ⟨hpre,hphase⟩
  | broke =>
    cases phase with
    | reading offset attempt total pos =>
      unfold Download.next Download.retry
      simp only
      split
      · exact ⟨hpre,trivial⟩
      · exact Aligned.goOn ⟨hpre,hphase⟩
    | _ => exact ⟨hpre,hphase⟩

end Download

/-- With an honest server, a download that starts from a prefix of the blob always has a
prefix on disk, and returns with the blob. -/
theorem run_intact {d : Downloader} {blob file : Bytes} (hfile : file <+: blob)
    {expectedSize : ℕ} {readable skipMagic : Bool} {es : List DownloadEvent}
    (hexpected : 0 < expectedSize → expectedSize < blob.length →
      d.usable expectedSize (existingOpfsSize file readable skipMagic) < expectedSize)
    (hr : (download d blob).Run (.start d file expectedSize readable skipMagic) es)
    (hc : ∀ p ∈ (download d blob).trail (.start d file expectedSize readable skipMagic) es,
      p.1.Unbroken d blob p.2) :
    (∀ p ∈ (download d blob).trail (.start d file expectedSize readable skipMagic) es,
      p.1.Intact blob) ∧
    ((download d blob).exec (.start d file expectedSize readable skipMagic) es).Intact blob := by
  have hstep : ∀ s e, Download.Aligned blob s → (download d blob).enabled s e →
      s.Unbroken d blob e → Download.Aligned blob ((download d blob).next s e) :=
    fun s e h he hc => h.next he hc
  have hstart := Download.aligned_start hfile hexpected
  refine ⟨fun p hp => ?_,(hr.invariant_of hstep hstart hc).intact⟩
  exact (hr.mem_trail_of hstep hstart hc hp).1.intact

def smallBlob : Bytes := ggufMagic ++ [1,2,3]

/-- A stream breaks after a short write; the next one brings the rest. -/
def brokenStream : List DownloadEvent :=
  [.response 206 (some 7) 2,.chunk 2 1,.broke,.response 206 (some 7) 1,.chunk 1 1,.drained]

theorem brokenStream_intact :
    (∀ p ∈ (download .doDownload smallBlob).trail
        (.start .doDownload (ggufMagic ++ [1]) 7 true false) brokenStream,
      p.1.Intact smallBlob) ∧
    ((download .doDownload smallBlob).exec
      (.start .doDownload (ggufMagic ++ [1]) 7 true false) brokenStream).Intact smallBlob := by
  refine run_intact (by decide) (by decide) (by decide) ?_
  simp only [brokenStream,Machine.forall_trail_cons]
  exact ⟨trivial,⟨rfl,nofun⟩,trivial,trivial,⟨rfl,nofun⟩,rfl,Machine.forall_trail_nil⟩

/-- A stream goes on after a short write. -/
def shortWrite : List DownloadEvent :=
  [.response 200 none 7,.chunk 5 4,.chunk 2 2,.drained]

/-- Both downloads return with a file that lacks a byte of the blob. -/
theorem shortWrite_not_intact :
    ((download .downloadToOpfs smallBlob).Run (.start .downloadToOpfs [] 7 true false) shortWrite ∧
      ¬ ((download .downloadToOpfs smallBlob).exec
        (.start .downloadToOpfs [] 7 true false) shortWrite).Intact smallBlob) ∧
    ((download .doDownload smallBlob).Run (.start .doDownload [] 7 true false) shortWrite ∧
      ¬ ((download .doDownload smallBlob).exec
        (.start .doDownload [] 7 true false) shortWrite).Intact smallBlob) := by
  refine ⟨⟨by decide,fun h => ?_⟩,⟨by decide,fun h => ?_⟩⟩
  · have hfile := h.2 6 false (by decide)
    revert hfile
    decide
  · have hfile := h.2 6 false (by decide)
    revert hfile
    decide

end Rullama.Opfs
