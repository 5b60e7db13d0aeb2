import MetaEditor.Lib.StdString

/-!
# Numbers in memory

The bytes of an unsigned or a two's complement number of `n` bytes, in either byte order, and back.
-/

namespace MetaEditor.Lib

/-- The `n` low bytes of a number, the lowest first. -/
def natBytes : Nat → Nat → Bytes
  | 0, _ => []
  | n + 1, x => UInt8.ofNat (x % 256) :: natBytes n (x / 256)

def natOfBytes : Bytes → Nat
  | [] => 0
  | b :: bs => b.toNat + 256 * natOfBytes bs

/-- The lowest byte comes first in memory, or the highest. -/
def inOrder (little : Bool) (bs : Bytes) : Bytes := if little then bs else bs.reverse

def encodeNat (little : Bool) (n x : Nat) : Bytes := inOrder little (natBytes n x)

def decodeNat (little : Bool) (bs : Bytes) : Nat := natOfBytes (inOrder little bs)

def encodeInt (little : Bool) (n : Nat) (x : Int) : Bytes := encodeNat little n (x % 256 ^ n).toNat

/-- The upper half of the unsigned range stands for the negative numbers. -/
def decodeInt (little : Bool) (bs : Bytes) : Int :=
  if 2 * decodeNat little bs < 256 ^ bs.length then decodeNat little bs
  else decodeNat little bs - 256 ^ bs.length

@[simp] theorem length_natBytes (n x : Nat) : (natBytes n x).length = n := by
  induction n generalizing x with
  | zero => rfl
  | succ n ih => simp [natBytes, ih]

theorem natOfBytes_natBytes (n x : Nat) : natOfBytes (natBytes n x) = x % 256 ^ n := by
  induction n generalizing x with
  | zero => simp [natBytes, natOfBytes, Nat.mod_one]
  | succ n ih =>
    have hbyte : (UInt8.ofNat (x % 256)).toNat = x % 256 := by
      rw [UInt8.toNat_ofNat']
      omega
    rw [natBytes, natOfBytes, hbyte, ih, Nat.pow_succ, Nat.mul_comm (256 ^ n), Nat.mod_mul]

@[simp] theorem inOrder_inOrder (little : Bool) (bs : Bytes) : inOrder little (inOrder little bs) = bs := by
  cases little <;> simp [inOrder]

@[simp] theorem length_inOrder (little : Bool) (bs : Bytes) : (inOrder little bs).length = bs.length := by
  cases little <;> simp [inOrder]

@[simp] theorem length_encodeNat (little : Bool) (n x : Nat) : (encodeNat little n x).length = n := by
  rw [encodeNat, length_inOrder, length_natBytes]

@[simp] theorem length_encodeInt (little : Bool) (n : Nat) (x : Int) : (encodeInt little n x).length = n :=
  length_encodeNat little n _

theorem decodeNat_encodeNat {little : Bool} {n x : Nat} (h : x < 256 ^ n) :
    decodeNat little (encodeNat little n x) = x := by
  rw [decodeNat, encodeNat, inOrder_inOrder, natOfBytes_natBytes, Nat.mod_eq_of_lt h]

theorem decodeInt_encodeInt {little : Bool} {n : Nat} {x : Int} (hlow : -(256 ^ n) ≤ 2 * x)
    (hhigh : 2 * x < 256 ^ n) : decodeInt little (encodeInt little n x) = x := by
  have hpos : (0 : Int) < 256 ^ n := by positivity
  have hmod := Int.emod_nonneg x hpos.ne'
  have hlt := Int.emod_lt_of_pos x hpos
  have hcast : ((256 ^ n : Nat) : Int) = 256 ^ n := by push_cast; rfl
  have hnat : decodeNat little (encodeInt little n x) = (x % 256 ^ n).toNat :=
    decodeNat_encodeNat (by omega)
  have htoNat : ((x % 256 ^ n).toNat : Int) = x % 256 ^ n := Int.toNat_of_nonneg hmod
  rw [decodeInt, hnat, length_encodeInt]
  rcases lt_or_ge x 0 with hneg | hnn
  · have hval : x % 256 ^ n = x + 256 ^ n := by
      rw [← Int.add_emod_right, Int.emod_eq_of_lt (by omega) (by omega)]
    rw [if_neg (by omega), htoNat, hval]
    omega
  · have hval : x % 256 ^ n = x := Int.emod_eq_of_lt hnn (by omega)
    rw [if_pos (by omega), htoNat, hval]

theorem natOfBytes_lt (bs : Bytes) : natOfBytes bs < 256 ^ bs.length := by
  induction bs with
  | nil => decide
  | cons b bs ih =>
    have hb := b.toNat_lt
    rw [natOfBytes, List.length_cons, Nat.pow_succ]
    omega

theorem decodeNat_lt (little : Bool) (bs : Bytes) : decodeNat little bs < 256 ^ bs.length := by
  have hlt := natOfBytes_lt (inOrder little bs)
  rwa [length_inOrder] at hlt

theorem decodeInt_range (little : Bool) (bs : Bytes) :
    -(256 ^ bs.length) ≤ 2 * decodeInt little bs ∧ 2 * decodeInt little bs < 256 ^ bs.length := by
  have hlt := decodeNat_lt little bs
  have hcast : ((256 ^ bs.length : Nat) : Int) = 256 ^ bs.length := by push_cast; rfl
  rw [decodeInt]
  split_ifs <;> omega

end MetaEditor.Lib
