/-
Machine words: masks by width, bytes with the least significant first, sign extension, and the
text of a word in hexadecimal.
-/
namespace TraceCore.Word

/-- The low `bits` bits set; all 64 of them from width 64 on. -/
def mask (bits : Nat) : UInt64 :=
  if 64 ≤ bits then 0xFFFFFFFFFFFFFFFF else (1 <<< UInt64.ofNat bits) - 1

/-- `full` with the bits of `m` taken from `value`. -/
def splice (m full value : UInt64) : UInt64 := (full &&& ~~~m) ||| (value &&& m)

/-- The word whose bytes are `bs`, least significant first. -/
def ofBytes : List UInt8 → UInt64
  | [] => 0
  | b :: bs => b.toUInt64 + 256 * ofBytes bs

/-- The `n` low bytes of a word, least significant first. -/
def toBytes : Nat → UInt64 → List UInt8
  | 0, _ => []
  | n + 1, v => v.toUInt8 :: toBytes n (v / 256)

/-- The two's complement value of the low `bytes` bytes of `v`. -/
def signed (bytes : Nat) (v : UInt64) : Int64 :=
  Int64.ofInt (Int.bmod v.toNat (1 <<< (8 * bytes)))

/-- Lower-case hexadecimal with the `0x` mark and no leading zeros. -/
def hex (n : Nat) : String :=
  "0x" ++ String.ofList (Nat.toDigits 16 n)

@[simp] theorem length_toBytes (n : Nat) (v : UInt64) : (toBytes n v).length = n := by
  induction n generalizing v with
  | zero => rfl
  | succ n ih => simp [toBytes, ih]

/-- A word that has no more than the written bytes is read back. -/
theorem ofBytes_toBytes {n : Nat} {v : UInt64} (h : v.toNat < 1 <<< (8 * n)) :
    ofBytes (toBytes n v) = v := by
  induction n generalizing v with
  | zero =>
    have : v.toNat = 0 := by simpa using h
    exact (UInt64.toNat_inj.1 this).symm
  | succ n ih =>
    have h : v.toNat < 256 * 1 <<< (8 * n) := by
      rwa [Nat.shiftLeft_eq, Nat.one_mul, Nat.mul_succ, Nat.pow_add, Nat.mul_comm, ← Nat.one_mul (2 ^ (8 * n)),
        ← Nat.shiftLeft_eq] at h
    have hq : (v / 256).toNat = v.toNat / 256 := by simp
    have hlow : v.toUInt8.toUInt64.toNat = v.toNat % 256 := by simp
    rw [toBytes, ofBytes, ih (by rw [hq]; exact Nat.div_lt_of_lt_mul (by omega))]
    apply UInt64.toNat_inj.1
    have := v.toNat_lt
    rw [UInt64.toNat_add, UInt64.toNat_mul, hlow, hq, show UInt64.toNat 256 = 256 from rfl]
    omega

end TraceCore.Word
