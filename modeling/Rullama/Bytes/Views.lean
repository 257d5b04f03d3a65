import Rullama.Bytes.LittleEndian

/-! # Views of buffers

A typed array of bytes is a part of a buffer that may begin at any offset. What is read from it does
not depend on where that is.
-/
namespace Rullama.Bytes

structure Uint8Array where
  buffer : List UInt8
  byteOffset : ℕ
  byteLength : ℕ
  within : byteOffset + byteLength ≤ buffer.length

namespace Uint8Array

/-- A new buffer and all of it. -/
def ofBytes (bytes : List UInt8) : Uint8Array :=
  ⟨bytes,0,bytes.length,Nat.le_of_eq (Nat.zero_add _)⟩

variable (v : Uint8Array)

def bytes : List UInt8 := (v.buffer.drop v.byteOffset).take v.byteLength

/-- `slice` copies. -/
def slice (start stop : ℕ) : Uint8Array := ofBytes ((v.bytes.take stop).drop start)

/-- `subarray` does not. -/
def subarray (start : ℕ) : Uint8Array where
  buffer := v.buffer
  byteOffset := v.byteOffset + min start v.byteLength
  byteLength := v.byteLength - start
  within := by
    have h := v.within
    omega

variable {v} {bs : List UInt8} {n : ℕ}

@[simp] theorem bytes_ofBytes (bs : List UInt8) : (ofBytes bs).bytes = bs := by
  rw [bytes,ofBytes,List.drop_zero,List.take_length]

@[simp] theorem length_bytes : v.bytes.length = v.byteLength := by
  have h := v.within
  rw [bytes,List.length_take,List.length_drop]
  omega

@[simp] theorem bytes_slice (start stop : ℕ) :
    (v.slice start stop).bytes = (v.bytes.take stop).drop start := bytes_ofBytes _

@[simp] theorem bytes_subarray (start : ℕ) : (v.subarray start).bytes = v.bytes.drop start := by
  rw [bytes,bytes,List.drop_take,List.drop_drop]
  simp only [subarray]
  rcases Nat.le_total start v.byteLength with h | h
  · rw [Nat.min_eq_left h]
  · rw [Nat.sub_eq_zero_of_le h,List.take_zero,List.take_zero]

end Uint8Array

/-- `new Uint32Array(buffer)`, on a machine that has the lowest byte first. -/
def uint32Array (buffer : List UInt8) : Except String (List UInt32) :=
  if buffer.length % 4 = 0 then .ok (words buffer)
  else .error "byte length of Uint32Array should be a multiple of 4"

/-! ## Data views -/

structure DataView where
  buffer : List UInt8
  byteOffset : ℕ
  byteLength : ℕ

namespace DataView

/-- `new DataView(buffer, byteOffset, byteLength)` -/
def new (buffer : List UInt8) (byteOffset byteLength : ℕ) : Except String DataView :=
  if buffer.length < byteOffset then .error "Start offset is outside the bounds of the buffer"
  else if buffer.length < byteOffset + byteLength then .error "Invalid DataView length"
  else .ok ⟨buffer,byteOffset,byteLength⟩

variable (d : DataView)

/-- The bytes of a field. -/
def field (offset width : ℕ) : Except String (List UInt8) :=
  if d.byteLength < offset + width then .error "Offset is outside the bounds of the DataView"
  else .ok ((d.buffer.drop (d.byteOffset + offset)).take width)

def getUint8 (offset : ℕ) : Except String ℕ := (d.field offset 1).map ofLe

/-- `getUint32(offset, true)` -/
def getUint32 (offset : ℕ) : Except String ℕ := (d.field offset 4).map ofLe

end DataView

variable {v : Uint8Array} {offset width n : ℕ}

theorem DataView.new_of_le (h : v.byteOffset + n ≤ v.buffer.length) :
    DataView.new v.buffer v.byteOffset n = .ok ⟨v.buffer,v.byteOffset,n⟩ := by
  rw [DataView.new,if_neg (by omega),if_neg (by omega)]

/-- A field of a view is a part of its bytes. -/
theorem DataView.field_of_le (h : offset + width ≤ n) (hn : n ≤ v.byteLength) :
    DataView.field ⟨v.buffer,v.byteOffset,n⟩ offset width =
      .ok ((v.bytes.drop offset).take width) := by
  rw [DataView.field,if_neg (by simp only; omega),Uint8Array.bytes,List.drop_take,List.drop_drop,
    List.take_take]
  rw [Nat.min_eq_left (by omega)]

end Rullama.Bytes
