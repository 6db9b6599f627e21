import Mathlib.Data.List.Nodup
import Mathlib.Logic.Function.Basic

/-!
One shared register and any number of requests, each of which reads the register, computes on
what it read, and saves the outcome, in three separate steps. Steps of different requests
interleave in any way. No lock and no version is assumed.
-/
namespace SharedRegister
variable {V A : Type}

/-- What a request makes of the value it read: a refusal, or a value to save and an answer. -/
abbrev Update (V A : Type) := V → Except A (V × A)

inductive Phase (V A : Type) where
  | waiting
  | holding (seen : V)
  | ready (seen next : V) (answer : A)
  | refused (answer : A)
  | saved (answer : A)

def Phase.seen : Phase V A → Option V
  | .holding v => some v
  | .ready v _ _ => some v
  | _ => none

structure State (V A : Type) where
  register : V
  phase : Nat → Phase V A

def start (v : V) : State V A := ⟨v, fun _ => .waiting⟩

def State.enter (s : State V A) (i : Nat) (p : Phase V A) : State V A :=
  { s with phase := Function.update s.phase i p }

section Runs
variable (updates : List (Update V A))

def step (s : State V A) (i : Nat) : State V A :=
  match updates[i]?, s.phase i with
  | some _, .waiting => s.enter i (.holding s.register)
  | some update, .holding seen =>
    match update seen with
    | .error answer => s.enter i (.refused answer)
    | .ok (next, answer) => s.enter i (.ready seen next answer)
  | some _, .ready _ next answer => { s.enter i (.saved answer) with register := next }
  | _, _ => s

def run (s : State V A) (schedule : List Nat) : State V A := schedule.foldl (step updates) s

def saving (s : State V A) (i : Nat) : Bool :=
  match updates[i]?, s.phase i with
  | some _, .ready _ _ _ => true
  | _, _ => false

def savers : State V A → List Nat → List Nat
  | _, [] => []
  | s, i :: rest =>
    if saving updates s i then i :: savers (step updates s i) rest
    else savers (step updates s i) rest

/-- No request saves while another is between its read and its save. -/
def Undisturbed : State V A → List Nat → Prop
  | _, [] => True
  | s, i :: rest =>
    (saving updates s i = true → ∀ j, j ≠ i → (s.phase j).seen = none) ∧
      Undisturbed (step updates s i) rest

def settle (v : V) (i : Nat) : V :=
  match updates[i]? with
  | none => v
  | some update =>
    match update v with
    | .error _ => v
    | .ok (next, _) => next

def sequential (v : V) (order : List Nat) : V := order.foldl (settle updates) v

/-- Each request of the order reads what the one before it saved, and none is refused. -/
inductive Chain (v : V) : List Nat → V → Prop where
  | nil : Chain v [] v
  | snoc {order : List Nat} {seen next : V} {i : Nat} {update : Update V A} {answer : A}
      (before : Chain v order seen) (known : updates[i]? = some update)
      (computed : update seen = .ok (next, answer)) : Chain v (order ++ [i]) next

inductive Move (s : State V A) (i : Nat) : Bool → State V A → Prop where
  | reads (first : s.phase i = .waiting) : Move s i false (s.enter i (.holding s.register))
  | refuses {seen : V} {answer : A} (held : s.phase i = .holding seen) :
      Move s i false (s.enter i (.refused answer))
  | computes {seen next : V} {answer : A} {update : Update V A} (held : s.phase i = .holding seen)
      (known : updates[i]? = some update) (computed : update seen = .ok (next, answer)) :
      Move s i false (s.enter i (.ready seen next answer))
  | saves {seen next : V} {answer : A} (done : s.phase i = .ready seen next answer) :
      Move s i true { s.enter i (.saved answer) with register := next }
  | idles : Move s i false s

end Runs

variable {updates : List (Update V A)} {v : V}

theorem chain_sequential {w : V} {order : List Nat} (chain : Chain updates v order w) :
    sequential updates v order = w := by
  induction chain with
  | nil => rfl
  | snoc before known computed ih =>
    unfold sequential at ih ⊢
    simp only [List.foldl_append, List.foldl_cons, List.foldl_nil, ih, settle, known, computed]

theorem step_moves (updates : List (Update V A)) (s : State V A) (i : Nat) :
    Move updates s i (saving updates s i) (step updates s i) := by
  unfold saving step
  cases known : updates[i]? with
  | none => exact .idles
  | some update =>
    cases here : s.phase i with
    | waiting => exact .reads here
    | holding seen =>
      simp only
      cases computed : update seen with
      | error answer => exact .refuses here
      | ok saved =>
        obtain ⟨next, answer⟩ := saved
        exact .computes here known computed
    | ready seen next answer => exact .saves here
    | refused answer => exact .idles
    | saved answer => exact .idles

theorem phase_entered (s : State V A) (i j : Nat) (p : Phase V A) :
    (s.enter i p).phase j = if j = i then p else s.phase j := by
  unfold State.enter
  exact Function.update_apply s.phase i p j

/-- What is known of a state when the requests of `past` have saved, in this order. -/
structure Traced (updates : List (Update V A)) (v : V) (past : List Nat) (s : State V A) : Prop where
  distinct : past.Nodup
  saved : ∀ i, i ∈ past ↔ ∃ answer, s.phase i = .saved answer
  register : ∃ order, order.Sublist past ∧ order.getLast? = past.getLast? ∧
    Chain updates v order s.register
  seen : ∀ i w, (s.phase i).seen = some w → ∃ order, order.Sublist past ∧ Chain updates v order w
  computed : ∀ i w next answer, s.phase i = .ready w next answer →
    ∃ update, updates[i]? = some update ∧ update w = .ok (next, answer)

theorem start_traced (updates : List (Update V A)) (v : V) : Traced updates v [] (start v) where
  distinct := List.nodup_nil
  saved i := by simp [start]
  register := ⟨[], List.Sublist.refl _, rfl, .nil⟩
  seen i w found := by simp [start, Phase.seen] at found
  computed i w next answer found := by simp [start] at found

theorem traced_enter {past : List Nat} {s : State V A} {i : Nat} {p : Phase V A}
    (traced : Traced updates v past s) (before : ∀ answer, s.phase i ≠ .saved answer)
    (after : ∀ answer, p ≠ .saved answer)
    (sees : ∀ w, p.seen = some w → ∃ order, order.Sublist past ∧ Chain updates v order w)
    (ready : ∀ w next answer, p = .ready w next answer →
      ∃ update, updates[i]? = some update ∧ update w = .ok (next, answer)) :
    Traced updates v past (s.enter i p) where
  distinct := traced.distinct
  saved j := by
    rw [phase_entered, traced.saved]
    split
    · rename_i same
      subst same
      constructor
      · intro done
        obtain ⟨answer, done⟩ := done
        exact absurd done (before answer)
      · intro done
        obtain ⟨answer, done⟩ := done
        exact absurd done (after answer)
    · rfl
  register := traced.register
  seen j w found := by
    rw [phase_entered] at found
    split at found
    · exact sees w found
    · exact traced.seen j w found
  computed j w next answer found := by
    rw [phase_entered] at found
    split at found
    · rename_i same
      subst same
      exact ready w next answer found
    · exact traced.computed j w next answer found

theorem traced_saves {past : List Nat} {s : State V A} {i : Nat} {seen next : V} {answer : A}
    (traced : Traced updates v past s) (done : s.phase i = .ready seen next answer) :
    Traced updates v (past ++ [i]) { s.enter i (.saved answer) with register := next } := by
  have fresh : i ∉ past := by
    intro member
    obtain ⟨answer, saved⟩ := (traced.saved i).mp member
    rw [done] at saved
    cases saved
  obtain ⟨order, sub, chain⟩ := traced.seen i seen (by rw [done]; rfl)
  obtain ⟨update, known, computed⟩ := traced.computed i seen next answer done
  have longer : ∀ {o : List Nat}, o.Sublist past → o.Sublist (past ++ [i]) :=
    fun inside => inside.trans (List.sublist_append_left past [i])
  constructor
  · exact List.nodup_append.mpr ⟨traced.distinct, List.nodup_singleton i, by
      intro a member b single same
      rw [List.mem_singleton.mp single] at same
      exact fresh (same ▸ member)⟩
  · intro j
    simp only [List.mem_append, List.mem_singleton, phase_entered]
    by_cases same : j = i
    · simp [same]
    · simp [same, traced.saved]
  · exact ⟨order ++ [i], List.Sublist.append sub (List.Sublist.refl _), by simp,
      .snoc chain known computed⟩
  · intro j w found
    simp only [phase_entered] at found
    split at found
    · cases found
    · obtain ⟨order, sub, chain⟩ := traced.seen j w found
      exact ⟨order, longer sub, chain⟩
  · intro j w next answer found
    simp only [phase_entered] at found
    split at found
    · cases found
    · exact traced.computed j w next answer found

theorem traced_step {past : List Nat} {s : State V A} (traced : Traced updates v past s) (i : Nat) :
    Traced updates v (if saving updates s i then past ++ [i] else past) (step updates s i) := by
  have move := step_moves updates s i
  generalize saving updates s i = flag at move
  generalize step updates s i = s' at move
  cases move with
  | idles => exact traced
  | reads first =>
    apply traced_enter traced
    · intro answer done
      rw [first] at done
      cases done
    · intro answer done
      cases done
    · intro w found
      cases found
      obtain ⟨order, sub, _, chain⟩ := traced.register
      exact ⟨order, sub, chain⟩
    · intro w next answer done
      cases done
  | refuses held =>
    apply traced_enter traced
    · intro answer done
      rw [held] at done
      cases done
    · intro answer done
      cases done
    · intro w found
      cases found
    · intro w next answer done
      cases done
  | @computes seen next answer update held known computed =>
    apply traced_enter traced
    · intro answer done
      rw [held] at done
      cases done
    · intro answer done
      cases done
    · intro w found
      cases found
      exact traced.seen i seen (by rw [held]; rfl)
    · intro w next answer done
      cases done
      exact ⟨update, known, computed⟩
  | saves done => exact traced_saves traced done

theorem savers_cons (past : List Nat) (s : State V A) (i : Nat) (rest : List Nat) :
    past ++ savers updates s (i :: rest) =
      (if saving updates s i then past ++ [i] else past) ++ savers updates (step updates s i) rest := by
  rw [savers]
  split
  · rw [List.append_assoc, List.singleton_append]
  · rfl

theorem traced_run {past : List Nat} {s : State V A} (traced : Traced updates v past s)
    (schedule : List Nat) :
    Traced updates v (past ++ savers updates s schedule) (run updates s schedule) := by
  induction schedule generalizing past s with
  | nil =>
    simp only [savers, List.append_nil]
    exact traced
  | cons i rest ih =>
    have later := ih (traced_step traced i)
    rw [savers_cons]
    exact later

/-- What holds as long as no request saves between another's read and save. -/
structure InTurn (updates : List (Update V A)) (v : V) (past : List Nat) (s : State V A) : Prop where
  register : Chain updates v past s.register
  seen : ∀ i w, (s.phase i).seen = some w → w = s.register

theorem start_in_turn (updates : List (Update V A)) (v : V) : InTurn updates v [] (start v) where
  register := .nil
  seen i w found := by simp [start, Phase.seen] at found

theorem in_turn_step {past : List Nat} {s : State V A} {i : Nat} (traced : Traced updates v past s)
    (turn : InTurn updates v past s)
    (alone : saving updates s i = true → ∀ j, j ≠ i → (s.phase j).seen = none) :
    InTurn updates v (if saving updates s i then past ++ [i] else past) (step updates s i) := by
  have move := step_moves updates s i
  generalize saving updates s i = flag at move alone
  generalize step updates s i = s' at move
  cases move with
  | idles => exact turn
  | reads first =>
    constructor
    · exact turn.register
    · intro j w found
      simp only [phase_entered] at found
      split at found
      · cases found
        rfl
      · exact turn.seen j w found
  | refuses held =>
    constructor
    · exact turn.register
    · intro j w found
      simp only [phase_entered] at found
      split at found
      · cases found
      · exact turn.seen j w found
  | @computes seen next answer update held known computed =>
    constructor
    · exact turn.register
    · intro j w found
      simp only [phase_entered] at found
      split at found
      · cases found
        exact turn.seen i seen (by rw [held]; rfl)
      · exact turn.seen j w found
  | @saves seen next answer done =>
    have current := turn.seen i seen (by rw [done]; rfl)
    obtain ⟨update, known, computed⟩ := traced.computed i seen next answer done
    subst current
    constructor
    · exact .snoc turn.register known computed
    · intro j w found
      simp only [phase_entered] at found
      split at found
      · cases found
      · rename_i other
        rw [alone rfl j other] at found
        cases found

theorem in_turn_run {past : List Nat} {s : State V A} (traced : Traced updates v past s)
    (turn : InTurn updates v past s) {schedule : List Nat}
    (undisturbed : Undisturbed updates s schedule) :
    InTurn updates v (past ++ savers updates s schedule) (run updates s schedule) := by
  induction schedule generalizing past s with
  | nil =>
    simp only [savers, List.append_nil]
    exact turn
  | cons i rest ih =>
    obtain ⟨alone, tail⟩ := undisturbed
    have later := ih (traced_step traced i) (in_turn_step traced turn alone) tail
    rw [savers_cons]
    exact later

theorem savers_all {past : List Nat} {s : State V A} (traced : Traced updates v past s)
    (inside : ∀ i, i ∈ past → i < updates.length)
    (all : ∀ i, i < updates.length → ∃ answer, s.phase i = .saved answer) :
    past.Perm (List.range updates.length) := by
  apply (List.perm_ext_iff_of_nodup traced.distinct List.nodup_range).mpr
  intro i
  rw [List.mem_range]
  constructor
  · exact inside i
  · intro within
    exact (traced.saved i).mpr (all i within)

theorem savers_known {updates : List (Update V A)} {s : State V A} {schedule : List Nat} {i : Nat}
    (member : i ∈ savers updates s schedule) : i < updates.length := by
  induction schedule generalizing s with
  | nil => cases member
  | cons j rest ih =>
    unfold savers at member
    split at member
    · rename_i saves
      rcases List.mem_cons.mp member with same | later
      · subst same
        unfold saving at saves
        split at saves
        · rename_i known _
          exact (List.getElem?_eq_some_iff.mp known).1
        · cases saves
      · exact ih later
    · exact ih member

/-- When every request has saved, a chain of some of them, the last one included, accounts for the
    register; and when none saved between another's read and save, the chain of all of them. -/
theorem saved_replayed {schedule : List Nat}
    (all : ∀ i, i < updates.length →
      ∃ answer, (run updates (start v) schedule).phase i = .saved answer) :
    (∃ order, order.Sublist (savers updates (start v) schedule) ∧
      order.getLast? = (savers updates (start v) schedule).getLast? ∧
      Chain updates v order (run updates (start v) schedule).register) ∧
    (savers updates (start v) schedule).Perm (List.range updates.length) ∧
    (Undisturbed updates (start v) schedule →
      Chain updates v (savers updates (start v) schedule)
        (run updates (start v) schedule).register) := by
  have traced := traced_run (start_traced updates v) schedule
  rw [List.nil_append] at traced
  constructor
  · exact traced.register
  constructor
  · exact savers_all traced (fun i member => savers_known member) all
  · intro undisturbed
    exact (in_turn_run (start_traced updates v) (start_in_turn updates v) undisturbed).register

end SharedRegister
