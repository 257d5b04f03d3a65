import Mathlib.Algebra.GroupWithZero.Nat
import Mathlib.Data.List.Basic
import Mathlib.Tactic.Common

/-! # Numbers as bytes

A number of a fixed width has its lowest byte first.
-/
namespace Rullama.Bytes

def toLe : ℕ → ℕ → List UInt8
  | 0, _ => []
  | k + 1, n => UInt8.ofNat n :: toLe k (n / 256)

def ofLe : List UInt8 → ℕ
  | [] => 0
  | b :: bs => b.toNat + 256 * ofLe bs

variable {k n : ℕ} {bs : List UInt8}

@[simp] theorem length_toLe (k n : ℕ) : (toLe k n).length = k := by
  induction k generalizing n with
  | zero => rfl
  | succ k ih => rw [toLe,List.length_cons,ih]

theorem ofLe_toLe (h : n < 256 ^ k) : ofLe (toLe k n) = n := by
  induction k generalizing n with
  | zero =>
    rw [Nat.pow_zero,Nat.lt_one_iff] at h
    rw [h]
    rfl
  | succ k ih =>
    have hlt : n / 256 < 256 ^ k := by
      rw [Nat.pow_succ,Nat.mul_comm] at h
      exact Nat.div_lt_of_lt_mul h
    have hbyte : (UInt8.ofNat n).toNat = n % 256 := UInt8.toNat_ofNat'
    rw [toLe,ofLe,ih hlt,hbyte]
    exact Nat.mod_add_div n 256

theorem ofLe_lt (bs : List UInt8) : ofLe bs < 256 ^ bs.length := by
  induction bs with
  | nil => exact Nat.one_pos
  | cons b bs ih =>
    have hb : b.toNat < 256 := b.toNat_lt
    rw [ofLe,List.length_cons,Nat.pow_succ]
    omega

theorem toLe_ofLe (bs : List UInt8) : toLe bs.length (ofLe bs) = bs := by
  induction bs with
  | nil => rfl
  | cons b bs ih =>
    have hb : b.toNat < 256 := b.toNat_lt
    have hlow : UInt8.ofNat (b.toNat + 256 * ofLe bs) = b := by
      apply UInt8.toNat_inj.mp
      rw [UInt8.toNat_ofNat']
      omega
    have hhigh : (b.toNat + 256 * ofLe bs) / 256 = ofLe bs := by omega
    rw [List.length_cons,ofLe,toLe,hlow,hhigh,ih]

/-! ## Words of 32 bits -/

def wordBytes (w : UInt32) : List UInt8 := toLe 4 w.toNat

def words : List UInt8 → List UInt32
  | b₀ :: b₁ :: b₂ :: b₃ :: bs => UInt32.ofNat (ofLe [b₀,b₁,b₂,b₃]) :: words bs
  | _ => []

theorem length_wordBytes (w : UInt32) : (wordBytes w).length = 4 := length_toLe 4 w.toNat

theorem length_flatMap_wordBytes (ws : List UInt32) :
    (ws.flatMap wordBytes).length = 4 * ws.length := by
  induction ws with
  | nil => rfl
  | cons w ws ih =>
    rw [List.flatMap_cons,List.length_append,length_wordBytes,ih,List.length_cons]
    omega

theorem ofLe_wordBytes (w : UInt32) : ofLe (wordBytes w) = w.toNat :=
  ofLe_toLe w.toNat_lt

theorem words_flatMap (ws : List UInt32) : words (ws.flatMap wordBytes) = ws := by
  induction ws with
  | nil => rfl
  | cons w ws ih =>
    have hle := ofLe_wordBytes w
    obtain ⟨b₀,b₁,b₂,b₃,hw⟩ : ∃ b₀ b₁ b₂ b₃, wordBytes w = [b₀,b₁,b₂,b₃] := ⟨_,_,_,_,rfl⟩
    rw [hw] at hle
    rw [List.flatMap_cons,hw]
    simp only [List.cons_append,List.nil_append,words,ih,hle,UInt32.ofNat_toNat]

theorem flatMap_words (h : bs.length = 4 * n) : (words bs).flatMap wordBytes = bs ∧
    (words bs).length = n := by
  induction n generalizing bs with
  | zero =>
    rw [List.length_eq_zero_iff.mp h]
    exact ⟨rfl,rfl⟩
  | succ n ih =>
    match bs,h with
    | b₀ :: b₁ :: b₂ :: b₃ :: bs, h =>
      have hlen : bs.length = 4 * n := by
        simp only [List.length_cons] at h
        omega
      obtain ⟨hbytes,hwords⟩ := ih hlen
      have hfour : ofLe [b₀,b₁,b₂,b₃] < 256 ^ 4 := ofLe_lt [b₀,b₁,b₂,b₃]
      have hlt : ofLe [b₀,b₁,b₂,b₃] < 2 ^ 32 := Nat.lt_of_lt_of_eq hfour (by decide)
      have hword : wordBytes (UInt32.ofNat (ofLe [b₀,b₁,b₂,b₃])) = [b₀,b₁,b₂,b₃] := by
        rw [wordBytes,UInt32.toNat_ofNat_of_lt' hlt]
        exact toLe_ofLe [b₀,b₁,b₂,b₃]
      rw [words,List.flatMap_cons,hword,hbytes,List.length_cons,hwords]
      exact ⟨rfl,rfl⟩

end Rullama.Bytes
