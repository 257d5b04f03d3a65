import Mathlib.Data.List.Infix

/-! # Files as lists of bytes

Truncation and writing in place. A file that grows by a truncation, or by a write past its
end, is filled with zeros.
-/
namespace Rullama.Opfs

abbrev Bytes := List UInt8

namespace Bytes

def truncate (file : Bytes) (n : ℕ) : Bytes := file.take n ++ List.replicate (n - file.length) 0

def writeAt (file data : Bytes) (at_ : ℕ) : Bytes :=
  file.truncate at_ ++ data ++ file.drop (at_ + data.length)

variable {file data : Bytes} {n : ℕ}

@[simp] theorem length_truncate (file : Bytes) (n : ℕ) : (file.truncate n).length = n := by
  simp only [truncate,List.length_append,List.length_take,List.length_replicate]
  omega

theorem truncate_of_le (h : n ≤ file.length) : file.truncate n = file.take n := by
  rw [truncate,Nat.sub_eq_zero_of_le h,List.replicate_zero,List.append_nil]

@[simp] theorem truncate_zero (file : Bytes) : file.truncate 0 = [] := by
  rw [truncate_of_le (Nat.zero_le _),List.take_zero]

/-- A write at the end of a file appends. -/
theorem writeAt_length (file data : Bytes) : file.writeAt data file.length = file ++ data := by
  rw [writeAt,truncate_of_le (Nat.le_refl _),List.take_length,
    List.drop_eq_nil_of_le (Nat.le_add_right _ _),List.append_nil]

/-- The beginning of a file that is written from the start. -/
theorem writeAt_zero (file data : Bytes) :
    file.writeAt data 0 = data ++ file.drop data.length := by
  rw [writeAt,truncate_zero,List.nil_append,Nat.zero_add]

end Bytes

/-- The piece of a blob from one position on. -/
theorem prefix_append_slice {blob file : Bytes} (h : file <+: blob) (n : ℕ) :
    file ++ (blob.drop file.length).take n <+: blob := by
  obtain ⟨rest,rfl⟩ := h
  rw [List.drop_left]
  exact List.prefix_append_right_inj file |>.mpr (List.take_prefix n rest)

end Rullama.Opfs
