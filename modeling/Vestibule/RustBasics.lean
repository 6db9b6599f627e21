import Mathlib.Algebra.Ring.Nat
import Mathlib.Data.List.Basic

/-!
What the model uses of Rust itself: byte strings, panics, 64-bit arithmetic with and without
overflow checks, casts to `usize`, and the string functions the sources call.
-/
namespace VestibuleRust

abbrev Bytes := List UInt8

def utf8 (s : String) : Bytes := s.toByteArray.data.toList

theorem utf8_injective {s t : String} (same : utf8 s = utf8 t) : s = t := by
  apply String.toByteArray_inj.mp
  apply ByteArray.ext
  exact Array.toList_inj.mp same

theorem from_utf8 (s : String) : String.fromUTF8? ⟨(utf8 s).toArray⟩ = some s := by
  have same : (⟨(utf8 s).toArray⟩ : ByteArray) = s.toByteArray := by
    apply ByteArray.ext
    simp [utf8]
  unfold String.fromUTF8?
  rw [dif_pos (same ▸ s.isValidUTF8)]
  simp only [same, String.fromUTF8]

/-- `str::from_utf8` accepts them. -/
def validUtf8 (b : Bytes) : Bool := (ByteArray.mk b.toArray).validateUTF8

/-- `char::is_whitespace`: the Unicode property White_Space. -/
def isWhitespace (c : Char) : Bool :=
  let n := c.toNat
  (9 ≤ n && n ≤ 13) || n = 32 || n = 0x85 || n = 0xA0 || n = 0x1680 || (0x2000 ≤ n && n ≤ 0x200A) ||
    n = 0x2028 || n = 0x2029 || n = 0x202F || n = 0x205F || n = 0x3000

def trim (s : String) : String :=
  String.ofList (((s.toList.dropWhile isWhitespace).reverse.dropWhile isWhitespace).reverse)

inductive Panic where
  | arithmetic
  | outOfRange
  | notCharBoundary
  deriving DecidableEq, Repr

/-- The machine and the build: the width of `usize`, and whether arithmetic overflow is checked
    (a panic) or wraps. -/
structure Target where
  wide : Bool
  overflowChecks : Bool
  deriving DecidableEq, Repr

def Target.usizeBits (target : Target) : Nat := if target.wide then 64 else 32

/-- `value as usize`. -/
def Target.usize (target : Target) (value : Nat) : Nat := value % 2 ^ target.usizeBits

def u64Limit : Nat := 2 ^ 64

def Target.add64 (target : Target) (a b : Nat) : Except Panic Nat :=
  if a + b < u64Limit then .ok (a + b)
  else if target.overflowChecks then .error .arithmetic
  else .ok ((a + b) % u64Limit)

def Target.mul64 (target : Target) (a b : Nat) : Except Panic Nat :=
  if a * b < u64Limit then .ok (a * b)
  else if target.overflowChecks then .error .arithmetic
  else .ok ((a * b) % u64Limit)

def Target.sub64 (target : Target) (a b : Nat) : Except Panic Nat :=
  if b ≤ a then .ok (a - b)
  else if target.overflowChecks then .error .arithmetic
  else .ok ((a + u64Limit - b) % u64Limit)

theorem add64_exact (target : Target) {a b : Nat} (fits : a + b < u64Limit) :
    target.add64 a b = .ok (a + b) := by
  simp [Target.add64, fits]

theorem mul64_exact (target : Target) {a b : Nat} (fits : a * b < u64Limit) :
    target.mul64 a b = .ok (a * b) := by
  simp [Target.mul64, fits]

theorem sub64_exact (target : Target) {a b : Nat} (fits : b ≤ a) :
    target.sub64 a b = .ok (a - b) := by
  simp [Target.sub64, fits]

theorem add64_mod {target : Target} {a b r : Nat} (run : target.add64 a b = .ok r) :
    r = (a + b) % u64Limit := by
  unfold Target.add64 at run
  split at run
  · rename_i fits
    rw [← Except.ok.inj run, Nat.mod_eq_of_lt fits]
  · split at run
    · cases run
    · exact (Except.ok.inj run).symm

theorem mul64_mod {target : Target} {a b r : Nat} (run : target.mul64 a b = .ok r) :
    r = (a * b) % u64Limit := by
  unfold Target.mul64 at run
  split at run
  · rename_i fits
    rw [← Except.ok.inj run, Nat.mod_eq_of_lt fits]
  · split at run
    · cases run
    · exact (Except.ok.inj run).symm

theorem sub64_mod {target : Target} {a b r : Nat} (small : a < u64Limit)
    (run : target.sub64 a b = .ok r) : r = (a + u64Limit - b) % u64Limit := by
  unfold Target.sub64 at run
  split at run
  · rename_i fits
    have moved : a + u64Limit - b = a - b + u64Limit := by omega
    rw [← Except.ok.inj run, moved, Nat.add_mod_right, Nat.mod_eq_of_lt (by omega)]
  · split at run
    · cases run
    · exact (Except.ok.inj run).symm

theorem bind_ok_iff {ε α β : Type} {x : Except ε α} {f : α → Except ε β} {r : β} :
    (x >>= f) = .ok r ↔ ∃ a, x = .ok a ∧ f a = .ok r := by
  cases x with
  | error e =>
    constructor
    · intro run
      cases run
    · rintro ⟨_, failed, _⟩
      cases failed
  | ok a =>
    constructor
    · intro run
      exact ⟨a, rfl, run⟩
    · rintro ⟨_, same, later⟩
      cases same
      exact later

@[simp] theorem ok_bind {α β : Type} (a : α) (f : α → Except Panic β) :
    (Except.ok a >>= f) = f a := rfl

theorem usize_small (target : Target) {value : Nat} (small : value < 2 ^ 32) :
    target.usize value = value := by
  simp only [Target.usize, Target.usizeBits]
  split
  · exact Nat.mod_eq_of_lt (Nat.lt_trans small (by decide))
  · exact Nat.mod_eq_of_lt small

theorem usize_same_iff {target : Target} {value : Nat} :
    target.usize value = value ↔ value < 2 ^ target.usizeBits := by
  constructor
  · intro same
    rw [← same]
    exact Nat.mod_lt _ (Nat.two_pow_pos _)
  · exact Nat.mod_eq_of_lt

theorem usize_le (target : Target) (value : Nat) : target.usize value ≤ value :=
  Nat.mod_le _ _

end VestibuleRust
