import Mathlib.Data.List.Basic
import Mathlib.Data.List.TakeWhile

/-!
Absolute URIs with an authority, as text: the parts they are cut into, and the hosts they name.
-/
namespace UriReferences

structure AbsoluteParts where
  scheme : List Char
  authority : List Char
  rest : List Char
  deriving DecidableEq, Repr

def isDelimiter (c : Char) : Bool := c = '/' || c = '?' || c = '#'

/-- What stands before the first colon, if two slashes follow it. -/
def splitAbsolute (text : List Char) : Option AbsoluteParts :=
  match text.dropWhile (· ≠ ':') with
  | ':' :: '/' :: '/' :: after =>
    some ⟨text.takeWhile (· ≠ ':'), after.takeWhile (!isDelimiter ·), after.dropWhile (!isDelimiter ·)⟩
  | _ => none

/-- A letter, and then letters, digits and three other characters. -/
def LegalScheme (scheme : List Char) : Prop :=
  (∃ first rest, scheme = first :: rest ∧ first.isAlpha = true) ∧
    ∀ c ∈ scheme, c.isAlphanum = true ∨ c = '+' ∨ c = '-' ∨ c = '.'

theorem legal_scheme {first : Char} {rest : List Char} (letter : first.isAlpha = true)
    (each : (first :: rest).all (fun c => c.isAlphanum || c = '+' || c = '-' || c = '.') = true) :
    LegalScheme (first :: rest) := by
  refine ⟨⟨first, rest, rfl, letter⟩, fun c member => ?_⟩
  have plain := List.all_eq_true.mp each c member
  simpa [or_assoc] using plain

def withoutUser (authority : List Char) : List Char :=
  (authority.reverse.takeWhile (· ≠ '@')).reverse

/-- The host of an authority: the address in brackets, or what stands before the port. -/
def hostOf (authority : List Char) : List Char :=
  match withoutUser authority with
  | '[' :: rest => '[' :: rest.takeWhile (· ≠ ']') ++ [']']
  | host => host.takeWhile (· ≠ ':')

def Below (host domain : List Char) : Prop := host = domain ∨ '.' :: domain <:+ host

def slashed (rest : List Char) : List Char := if rest.head? = some '/' then rest else '/' :: rest

def withoutFragment (rest : List Char) : List Char := rest.takeWhile (· ≠ '#')

section Splitting
variable {text scheme authority rest : List Char}

theorem take_while_free {p : Char → Bool} (front : List Char) (free : ∀ c ∈ front, p c = true)
    (back : ∀ c, rest.head? = some c → p c = false) :
    (front ++ rest).takeWhile p = front ∧ (front ++ rest).dropWhile p = rest := by
  induction front with
  | nil =>
    cases rest with
    | nil => exact ⟨rfl, rfl⟩
    | cons c rest =>
      have stops := back c rfl
      exact ⟨List.takeWhile_cons_of_neg (by simp [stops]), List.dropWhile_cons_of_neg (by simp [stops])⟩
  | cons c front ih =>
    obtain ⟨taken, dropped⟩ := ih fun d member => free d (List.mem_cons_of_mem _ member)
    have kept := free c List.mem_cons_self
    rw [List.cons_append, List.takeWhile_cons_of_pos kept, List.dropWhile_cons_of_pos kept, taken, dropped]
    exact ⟨rfl, rfl⟩

theorem split_joined (named : ':' ∉ scheme) (inside : ∀ c ∈ authority, isDelimiter c = false)
    (ends : ∀ c, rest.head? = some c → isDelimiter c = true) :
    splitAbsolute (scheme ++ ':' :: '/' :: '/' :: (authority ++ rest)) = some ⟨scheme, authority, rest⟩ := by
  obtain ⟨front, after⟩ := @take_while_free (':' :: '/' :: '/' :: (authority ++ rest)) (· ≠ ':') scheme
    (fun c member => by
      have other : c ≠ ':' := fun same => named (same ▸ member)
      simpa using other)
    (fun c first => by
      cases first
      rfl)
  obtain ⟨taken, dropped⟩ := @take_while_free rest (!isDelimiter ·) authority
    (fun c member => by simp [inside c member]) (fun c first => by simp [ends c first])
  unfold splitAbsolute
  rw [front, after]
  simp only [taken, dropped]

theorem split_shape {parts : AbsoluteParts} (split : splitAbsolute text = some parts) :
    text = parts.scheme ++ ':' :: '/' :: '/' :: (parts.authority ++ parts.rest) ∧
      ':' ∉ parts.scheme ∧ (∀ c ∈ parts.authority, isDelimiter c = false) ∧
      ∀ c, parts.rest.head? = some c → isDelimiter c = true := by
  unfold splitAbsolute at split
  split at split
  · rename_i after found
    cases split
    refine ⟨?_, ?_, ?_, ?_⟩
    · rw [List.takeWhile_append_dropWhile, ← found, List.takeWhile_append_dropWhile]
    · intro inside
      have other := List.mem_takeWhile_imp inside
      simp at other
    · intro c member
      simpa using List.mem_takeWhile_imp member
    · intro c first
      have stops := List.head?_dropWhile_not (!isDelimiter ·) after
      simp only at first
      rw [first] at stops
      simpa using stops
  · cases split

end Splitting

section Parts
variable {rest host domain : List Char}

theorem below_infix (below : Below host domain) : domain <:+: host := by
  rcases below with same | suffix
  · exact same ▸ List.infix_refl domain
  · exact (List.suffix_cons '.' domain).isInfix.trans suffix.isInfix

theorem slashed_head (rest : List Char) : (slashed rest).head? = some '/' := by
  unfold slashed
  split
  · assumption
  · rfl

theorem mem_slashed : '#' ∈ slashed rest ↔ '#' ∈ rest := by
  unfold slashed
  split <;> simp

theorem without_fragment_free : '#' ∉ withoutFragment rest := by
  intro inside
  have other := List.mem_takeWhile_imp inside
  simp at other

theorem without_fragment_same (free : '#' ∉ rest) : withoutFragment rest = rest := by
  apply List.takeWhile_eq_self_iff.mpr
  intro c member
  have other : c ≠ '#' := fun same => free (same ▸ member)
  simpa using other

theorem slashed_whole_iff : slashed (withoutFragment rest) = slashed rest ↔ '#' ∉ rest := by
  constructor
  · intro same inside
    exact without_fragment_free (mem_slashed.mp (same ▸ mem_slashed.mpr inside))
  · intro free
    rw [without_fragment_same free]

theorem slashed_same_iff : slashed (withoutFragment rest) = rest ↔
    rest.head? = some '/' ∧ '#' ∉ rest := by
  constructor
  · intro same
    constructor
    · rw [← same]
      exact slashed_head _
    · rw [← same, mem_slashed]
      exact without_fragment_free
  · rintro ⟨first, free⟩
    rw [without_fragment_same free, slashed, if_pos first]

end Parts
end UriReferences
