import Mathlib.Data.List.Basic

/-!
A payload sealed piece by piece: every piece but the last has `n` elements, the last one is
shorter (possibly empty) and is sealed under a different flag. A sealed piece is `t` elements
longer than the piece. Nothing is said here about what sealing is.
-/
namespace SealedChunks
variable {α β : Type}

def piece (n : Nat) (p : List α) (i : Nat) : List α := (p.drop (n * i)).take n

def piecesFrom (n : Nat) (p : List α) : Nat → Nat → List (List α)
  | 0, i => [piece n p i]
  | k + 1, i => piece n p i :: piecesFrom n p k (i + 1)

def sealedFrom (encode : Nat → Bool → List α → List β) (n : Nat) (p : List α) :
    Nat → Nat → List β
  | 0, i => encode i true (piece n p i)
  | k + 1, i => encode i false (piece n p i) ++ sealedFrom encode n p k (i + 1)

inductive Ending where
  | finished
  | failed
  deriving DecidableEq, Repr

/-- What a reader of chunks of `size` elements makes of a stored sequence from chunk `i` on: a
    full chunk is opened as one that has a successor, a shorter one as the last, and the end of
    the input at a chunk boundary is an end like any other. -/
inductive Opens (decode : Nat → Bool → List β → Option (List α)) (size : Nat) :
    Nat → List β → List (List α) → Ending → Prop where
  | full {i : Nat} {stored : List β} {plain : List α} {later : List (List α)} {ending : Ending}
      (long : size ≤ stored.length) (opened : decode i false (stored.take size) = some plain)
      (tail : Opens decode size (i + 1) (stored.drop size) later ending) :
      Opens decode size i stored (plain :: later) ending
  | fullRefused {i : Nat} {stored : List β} (long : size ≤ stored.length)
      (refused : decode i false (stored.take size) = none) :
      Opens decode size i stored [] .failed
  | stop (i : Nat) : Opens decode size i [] [] .finished
  | short {i : Nat} {stored : List β} {plain : List α} (some_left : stored ≠ [])
      (below : stored.length < size) (opened : decode i true stored = some plain) :
      Opens decode size i stored [plain] .finished
  | shortRefused {i : Nat} {stored : List β} (some_left : stored ≠ [])
      (below : stored.length < size) (refused : decode i true stored = none) :
      Opens decode size i stored [] .failed

theorem opens_unique {decode : Nat → Bool → List β → Option (List α)} {size i : Nat}
    {stored : List β} {a b : List (List α)} {x y : Ending} (positive : 0 < size)
    (first : Opens decode size i stored a x) (second : Opens decode size i stored b y) :
    a = b ∧ x = y := by
  induction first generalizing b y with
  | full long opened tail ih =>
    cases second with
    | full _ opened' tail' =>
      obtain ⟨same, ending⟩ := ih tail'
      have plain := Option.some.inj (opened.symm.trans opened')
      exact ⟨by rw [plain, same], ending⟩
    | fullRefused _ refused => simp [opened] at refused
    | stop => simp at long; omega
    | short _ below => omega
    | shortRefused _ below => omega
  | fullRefused long refused =>
    cases second with
    | full _ opened => simp [refused] at opened
    | fullRefused => exact ⟨rfl, rfl⟩
    | stop => simp at long; omega
    | short _ below => omega
    | shortRefused _ below => omega
  | stop =>
    cases second with
    | full long => simp at long; omega
    | fullRefused long => simp at long; omega
    | stop => exact ⟨rfl, rfl⟩
    | short some_left => exact absurd rfl some_left
    | shortRefused some_left => exact absurd rfl some_left
  | short some_left below opened =>
    cases second with
    | full long => omega
    | fullRefused long => omega
    | stop => exact absurd rfl some_left
    | short _ _ opened' => exact ⟨by rw [Option.some.inj (opened.symm.trans opened')], rfl⟩
    | shortRefused _ _ refused => simp [opened] at refused
  | shortRefused some_left below refused =>
    cases second with
    | full long => omega
    | fullRefused long => omega
    | stop => exact absurd rfl some_left
    | short _ _ opened => simp [refused] at opened
    | shortRefused => exact ⟨rfl, rfl⟩

theorem opens_full {decode : Nat → Bool → List β → Option (List α)} {size i : Nat}
    {stored : List β} {plain : List α} {plains : List (List α)} {ending : Ending}
    (positive : 0 < size) (long : size ≤ stored.length)
    (opened : decode i false (stored.take size) = some plain)
    (run : Opens decode size i stored plains ending) :
    ∃ later, plains = plain :: later ∧
      Opens decode size (i + 1) (stored.drop size) later ending := by
  cases run with
  | @full _ _ plain' later _ _ opened' tail =>
    exact ⟨later, by rw [Option.some.inj (opened.symm.trans opened')], tail⟩
  | fullRefused _ refused => simp [opened] at refused
  | stop => simp at long; omega
  | short _ below => omega
  | shortRefused _ below => omega

theorem piece_length_full {n i : Nat} {p : List α} (before : i < p.length / n) :
    (piece n p i).length = n := by
  have enough : n * (i + 1) ≤ p.length :=
    Nat.le_trans (Nat.mul_le_mul_left n before) (Nat.mul_div_le p.length n)
  rw [Nat.mul_succ] at enough
  simp only [piece, List.length_take, List.length_drop]
  omega

theorem piece_length_last {n : Nat} {p : List α} (positive : 0 < n) :
    (piece n p (p.length / n)).length = p.length % n := by
  have split := Nat.div_add_mod p.length n
  have small := Nat.mod_lt p.length positive
  simp only [piece, List.length_take, List.length_drop]
  omega

theorem piece_cons (n : Nat) (p : List α) (i : Nat) :
    piece n p i ++ p.drop (n * (i + 1)) = p.drop (n * i) := by
  rw [Nat.mul_succ, ← List.drop_drop]
  exact List.take_append_drop n (p.drop (n * i))

theorem after_last {n : Nat} {p : List α} (positive : 0 < n) :
    p.drop (n * (p.length / n + 1)) = [] := by
  apply List.drop_of_length_le
  have small := Nat.lt_mul_div_succ p.length positive
  omega

theorem last_piece {n : Nat} {p : List α} (positive : 0 < n) :
    piece n p (p.length / n) = p.drop (n * (p.length / n)) := by
  rw [← piece_cons, after_last positive, List.append_nil]

theorem pieces_flatten {n : Nat} {p : List α} (positive : 0 < n) {k i : Nat}
    (count : i + k = p.length / n) : (piecesFrom n p k i).flatten = p.drop (n * i) := by
  induction k generalizing i with
  | zero =>
    have here : i = p.length / n := by omega
    subst here
    simp [piecesFrom, last_piece positive]
  | succ k ih =>
    rw [piecesFrom, List.flatten_cons, ih (by omega)]
    exact piece_cons n p i

section Reading
variable {decode : Nat → Bool → List β → Option (List α)} {t size : Nat}

theorem opens_lengths (shrinks : ∀ i last x q, decode i last x = some q → x.length = q.length + t)
    (positive : 0 < size) {i : Nat} {stored : List β} {plains : List (List α)}
    (run : Opens decode size i stored plains .finished) :
    stored.length = plains.flatten.length + t * plains.length ∧
      plains.length = stored.length / size + if 0 < stored.length % size then 1 else 0 := by
  generalize finished : Ending.finished = ending at run
  induction run with
  | full long opened tail ih =>
    obtain ⟨total, count⟩ := ih finished
    have first := shrinks _ _ _ _ opened
    rw [List.length_take, Nat.min_eq_left long] at first
    rw [List.length_drop] at total count
    rw [← Nat.mod_eq_sub_mod long] at count
    have quotient := Nat.div_eq_sub_div positive long
    simp only [List.flatten_cons, List.length_append, List.length_cons, Nat.mul_succ]
    exact ⟨by omega, by omega⟩
  | fullRefused => cases finished
  | stop => simp
  | short some_left below opened =>
    have only := shrinks _ _ _ _ opened
    have nonempty := List.length_pos_iff.mpr some_left
    simp only [List.flatten_cons, List.flatten_nil, List.append_nil, List.length_cons,
      List.length_nil, Nat.div_eq_of_lt below, Nat.mod_eq_of_lt below]
    exact ⟨by omega, by simp [nonempty]⟩
  | shortRefused => cases finished

theorem opens_from {n : Nat} (shrinks : ∀ i last x q, decode i last x = some q → x.length = q.length + t)
    (positive : 0 < n) {i j : Nat} {stored : List β} {plains : List (List α)}
    (run : Opens decode (n + t) i stored plains .finished) (within : n * j ≤ plains.flatten.length) :
    ∃ later, Opens decode (n + t) (i + j) (stored.drop ((n + t) * j)) later .finished ∧
      later.flatten = plains.flatten.drop (n * j) := by
  induction j generalizing i stored plains with
  | zero => exact ⟨plains, run, rfl⟩
  | succ j ih =>
    rw [Nat.mul_succ] at within
    cases run with
    | @full _ _ plain later _ long opened tail =>
      have width := shrinks _ _ _ _ opened
      rw [List.length_take, Nat.min_eq_left long] at width
      have size : plain.length = n := by omega
      rw [List.flatten_cons, List.length_append, size] at within
      obtain ⟨rest, there, same⟩ := ih tail (by omega)
      have skip : (n + t) * (j + 1) = (n + t) + (n + t) * j := by rw [Nat.mul_succ, Nat.add_comm]
      have step : n * (j + 1) = n + n * j := by rw [Nat.mul_succ, Nat.add_comm]
      refine ⟨rest, ?_, ?_⟩
      · rwa [skip, ← List.drop_drop, ← Nat.add_assoc, Nat.add_right_comm]
      · rw [same, List.flatten_cons, step, ← List.drop_drop, List.drop_left' size]
    | stop =>
      rw [List.flatten_nil, List.length_nil] at within
      omega
    | @short _ _ plain some_left below opened =>
      have width := shrinks _ _ _ _ opened
      rw [List.flatten_cons, List.flatten_nil, List.append_nil] at within
      omega

end Reading

section Written
variable {encode : Nat → Bool → List α → List β} {decode : Nat → Bool → List β → Option (List α)}
variable {n t : Nat} {p : List α}

def Undone (encode : Nat → Bool → List α → List β) (decode : Nat → Bool → List β → Option (List α))
    (n : Nat) (p : List α) : Prop :=
  ∀ i, i ≤ p.length / n → decode i (decide (i = p.length / n))
    (encode i (decide (i = p.length / n)) (piece n p i)) = some (piece n p i)

/-- Whatever opens is a piece of `p` that was sealed at that counter, under that flag. -/
def Genuine (encode : Nat → Bool → List α → List β) (decode : Nat → Bool → List β → Option (List α))
    (n : Nat) (p : List α) : Prop :=
  ∀ i last x q, decode i last x = some q →
    i ≤ p.length / n ∧ last = decide (i = p.length / n) ∧
      x = encode i last (piece n p i) ∧ q = piece n p i

theorem sealed_full_length (grows : ∀ i last x, (encode i last x).length = x.length + t)
    {i : Nat} (before : i < p.length / n) :
    (encode i false (piece n p i)).length = n + t := by
  rw [grows, piece_length_full before]

theorem sealed_last_length (grows : ∀ i last x, (encode i last x).length = x.length + t)
    (positive : 0 < n) {i : Nat} (here : i = p.length / n) :
    (encode i true (piece n p i)).length < n + t := by
  subst here
  rw [grows, piece_length_last positive]
  have small := Nat.mod_lt p.length positive
  omega

theorem sealed_drop (grows : ∀ i last x, (encode i last x).length = x.length + t) {k i j : Nat}
    (count : i + k = p.length / n) (within : j ≤ k) :
    (sealedFrom encode n p k i).drop ((n + t) * j) = sealedFrom encode n p (k - j) (i + j) := by
  induction j generalizing k i with
  | zero => rfl
  | succ j ih =>
    obtain ⟨k, rfl⟩ : ∃ m, k = m + 1 := ⟨k - 1, by omega⟩
    have width : (encode i false (piece n p i)).length = n + t :=
      sealed_full_length grows (by omega)
    have skip : (n + t) * (j + 1) = (n + t) + (n + t) * j := by rw [Nat.mul_succ, Nat.add_comm]
    rw [sealedFrom, skip, ← List.drop_drop, List.drop_left' width, ih (by omega) (by omega)]
    congr 1 <;> omega

theorem sealed_enough (grows : ∀ i last x, (encode i last x).length = x.length + t)
    (tagged : 0 < t) (k i : Nat) : k < (sealedFrom encode n p k i).length := by
  induction k generalizing i with
  | zero =>
    rw [sealedFrom, grows]
    omega
  | succ k ih =>
    have later := ih (i + 1)
    rw [sealedFrom, List.length_append, grows]
    omega

theorem sealed_covers (grows : ∀ i last x, (encode i last x).length = x.length + t)
    (positive : 0 < n) {k i : Nat} (count : i + k = p.length / n) :
    (p.drop (n * i)).length ≤ (sealedFrom encode n p k i).length := by
  induction k generalizing i with
  | zero =>
    have here : i = p.length / n := by omega
    subst here
    rw [sealedFrom, grows, ← last_piece positive]
    exact Nat.le_add_right _ _
  | succ k ih =>
    have later := ih (i := i + 1) (by omega)
    rw [sealedFrom, List.length_append, grows, ← piece_cons n p i, List.length_append]
    omega

theorem opens_sealed (grows : ∀ i last x, (encode i last x).length = x.length + t)
    (undone : Undone encode decode n p) (positive : 0 < n) (tagged : 0 < t) {k i : Nat}
    (count : i + k = p.length / n) :
    Opens decode (n + t) i (sealedFrom encode n p k i) (piecesFrom n p k i) .finished := by
  induction k generalizing i with
  | zero =>
    have here : i = p.length / n := by omega
    have back := undone i (by omega)
    rw [decide_eq_true here] at back
    have nonempty : encode i true (piece n p i) ≠ [] := by
      apply List.ne_nil_of_length_pos
      rw [grows]
      omega
    exact .short nonempty (sealed_last_length grows positive here) back
  | succ k ih =>
    have before : i < p.length / n := by omega
    have width : (encode i false (piece n p i)).length = n + t := sealed_full_length grows before
    have back := undone i (by omega)
    rw [decide_eq_false (by omega)] at back
    rw [sealedFrom, piecesFrom]
    refine .full ?_ ?_ ?_
    · rw [List.length_append]; omega
    · rwa [List.take_left' width]
    · rw [List.drop_left' width]
      exact ih (by omega)

theorem opens_faithful (genuine : Genuine encode decode n p) {size i : Nat}
    {stored : List β} {plains : List (List α)} {ending : Ending}
    (run : Opens decode size i stored plains ending) :
    plains.flatten <+: p.drop (n * i) := by
  induction run with
  | @full i stored plain later ending long opened tail ih =>
    obtain ⟨_, _, _, same⟩ := genuine _ _ _ _ opened
    rw [List.flatten_cons, same, ← piece_cons]
    exact (List.prefix_append_right_inj _).mpr ih
  | fullRefused => exact List.nil_prefix
  | stop => exact List.nil_prefix
  | @short i stored plain some_left below opened =>
    obtain ⟨_, _, _, same⟩ := genuine _ _ _ _ opened
    rw [same, List.flatten_cons, List.flatten_nil, List.append_nil, ← piece_cons n p i]
    exact List.prefix_append _ _
  | shortRefused => exact List.nil_prefix

theorem short_rest_cut {size i : Nat} {stored : List β} {plains : List (List α)} {ending : Ending}
    (below : stored.length < size) (refused : stored ≠ [] → decode i true stored = none)
    (run : Opens decode size i stored plains ending) :
    ending = .finished ↔ size ∣ stored.length := by
  by_cases nothing : stored = []
  · subst nothing
    obtain ⟨_, finished⟩ := opens_unique (by omega) run (.stop i)
    simp [finished]
  · obtain ⟨_, failed⟩ := opens_unique (by omega) run
      (.shortRefused nothing below (refused nothing))
    have nonempty := List.length_pos_iff.mpr nothing
    have apart := Nat.not_dvd_of_pos_of_lt nonempty below
    simp [failed, apart]

theorem opens_cut (grows : ∀ i last x, (encode i last x).length = x.length + t)
    (undone : Undone encode decode n p) (genuine : Genuine encode decode n p) (positive : 0 < n)
    {k i : Nat} (count : i + k = p.length / n) {stored : List β}
    {plains : List (List α)} {ending : Ending}
    (cut : stored <+: sealedFrom encode n p k i) (proper : stored ≠ sealedFrom encode n p k i)
    (run : Opens decode (n + t) i stored plains ending) :
    ending = .finished ↔ (n + t) ∣ stored.length := by
  induction k generalizing i stored plains with
  | zero =>
    have here : i = p.length / n := by omega
    have width : (encode i true (piece n p i)).length < n + t :=
      sealed_last_length grows positive here
    have below := Nat.lt_of_le_of_lt cut.length_le width
    refine short_rest_cut below (fun _ => ?_) run
    cases opened : decode i true stored with
    | none => rfl
    | some q => exact absurd (genuine _ _ _ _ opened).2.2.1 proper
  | succ k ih =>
    have before : i < p.length / n := by omega
    have width : (encode i false (piece n p i)).length = n + t := sealed_full_length grows before
    have back := undone i (by omega)
    rw [decide_eq_false (by omega)] at back
    rw [sealedFrom] at cut proper
    by_cases long : n + t ≤ stored.length
    · obtain ⟨rest, same⟩ := List.prefix_of_prefix_length_le (List.prefix_append _ _) cut
        (by omega)
      subst same
      have restCut := (List.prefix_append_right_inj _).mp cut
      have restProper : rest ≠ sealedFrom encode n p k (i + 1) := fun equal =>
        proper (by rw [equal])
      rw [List.length_append, width]
      obtain ⟨later, _, tail⟩ := opens_full (by omega) long (by rwa [List.take_left' width]) run
      rw [List.drop_left' width] at tail
      rw [ih (by omega) restCut restProper tail]
      exact (Nat.dvd_add_right (Nat.dvd_refl _)).symm
    · refine short_rest_cut (by omega) (fun _ => ?_) run
      cases opened : decode i true stored with
      | none => rfl
      | some q =>
        have flag := (genuine _ _ _ _ opened).2.1
        simp at flag
        omega

end Written
end SealedChunks
