/-! # Words in memory

Values are stored with their least significant byte first. Writing and reading back are
the two directions of one correspondence between byte strings and numbers.
-/

namespace HostCode

/-- An address in the memory of the host. -/
abbrev HostAddress := UInt64

/-- An address in the memory of the emulated processor. -/
abbrev GuestAddress := UInt32

/-- The `count` low bytes of `value`, least significant first. -/
def littleEndian : (count value : Nat) → List UInt8
  | 0, _ => []
  | n + 1, v => UInt8.ofNat v :: littleEndian n (v / 256)

/-- The number written by `bytes`, least significant first. -/
def ofLittleEndian : (bytes : List UInt8) → Nat
  | [] => 0
  | b :: bs => b.toNat + 256 * ofLittleEndian bs

@[simp] theorem length_littleEndian (n v : Nat) : (littleEndian n v).length = n := by
  induction n generalizing v with
  | zero => rfl
  | succ n ih => simp [littleEndian, ih]

theorem ofLittleEndian_littleEndian (n v : Nat) :
    ofLittleEndian (littleEndian n v) = v % Nat.pow 256 n := by
  induction n generalizing v with
  | zero => exact (Nat.mod_one v).symm
  | succ n ih =>
    have hpow : Nat.pow 256 (n + 1) = 256 * Nat.pow 256 n := Nat.mul_comm _ _
    rw [littleEndian, ofLittleEndian, ih, hpow, Nat.mod_mul]
    simp

theorem littleEndian_ofLittleEndian (bs : List UInt8) :
    littleEndian bs.length (ofLittleEndian bs) = bs := by
  induction bs with
  | nil => rfl
  | cons b bs ih =>
    have hb : b.toNat < 256 := b.toNat_lt
    have hlow : UInt8.ofNat (b.toNat + 256 * ofLittleEndian bs) = b := by
      apply UInt8.toNat.inj
      simp only [UInt8.toNat_ofNat']
      omega
    have hhigh : (b.toNat + 256 * ofLittleEndian bs) / 256 = ofLittleEndian bs := by omega
    simp only [List.length_cons, ofLittleEndian, littleEndian, hlow, hhigh, ih]

/-- Offsets are below this, since they are held in signed words of 64 bits. -/
def offsetLimit : Nat := 0x8000000000000000

end HostCode
