import Mathlib.Data.List.Basic

/-!
The TLS loop of `main`, with the tasks of its connections and the channel that carries the reload
signals. `main` looks at its flags before it waits for a connection and not after, and a task sets
the flag of the loop that spawned it, so a signal may come too late for one more connection, or
reach no task of the loop that runs.
-/
namespace VestibuleServing

/-- Where `main` is: before the test of the outer or of the inner flag, building a router, waiting for a
    connection, between a connection and the task for it, or done. -/
inductive Mode where
  | outer
  | building
  | inner
  | accepting
  | accepted
  | finished
  deriving DecidableEq, Repr

/-- The task of a connection: the number of the router that serves it, whether the handshake is over,
    and the signals sent since it subscribed. -/
structure Task where
  router : Nat
  serving : Bool
  pending : List Nat
  deriving DecidableEq, Repr

/-- `routers` counts the routers built, the last of which is in use, and `stopped` lists those whose
    `continue_inner_loop` is false. Of each signal `signals` tells how many routers were built before
    it; `received` lists the signals that some task has received. -/
structure State where
  mode : Mode
  routers : Nat
  stopped : List Nat
  continueMain : Bool
  tasks : List Task
  signals : List Nat
  received : List Nat
  deriving DecidableEq, Repr

def State.start : State := ⟨.outer, 0, [], true, [], [], []⟩

def capacity : Nat := 16

/-- A step of `main`, or of the task at a place in the list: its handshake, a request for `/reload` that
    it serves, a signal that it takes from the channel, the signal to shut down, or its end. -/
inductive Event where
  | testOuter
  | build (ok : Bool)
  | testInner
  | accept
  | spawn
  | handshake (i : Nat)
  | reload (i : Nat)
  | receive (i : Nat)
  | shutdown (i : Nat)
  | finish (i : Nat)
  deriving DecidableEq, Repr

/-- The reload branch of the task. The connection is dropped with its future. A receiver that has fallen
    behind the channel is told so instead of given a signal, and takes the branch all the same. -/
def State.reloads (st : State) (i : Nat) (task : Task) (signal : Nat) : State :=
  { st with
    stopped := task.router :: st.stopped
    tasks := st.tasks.eraseIdx i
    received := if task.pending.length ≤ capacity then signal :: st.received else st.received }

def State.step (st : State) : Event → Option State
  | .testOuter =>
    if st.mode = .outer then
      some { st with mode := if st.continueMain then .building else .finished }
    else none
  | .build ok =>
    if st.mode = .building then
      some (if ok then { st with mode := .inner, routers := st.routers + 1 }
        else { st with mode := .finished })
    else none
  | .testInner =>
    if st.mode = .inner then
      some { st with mode := if st.routers ∈ st.stopped then .outer else .accepting }
    else none
  | .accept => if st.mode = .accepting then some { st with mode := .accepted } else none
  | .spawn =>
    if st.mode = .accepted then
      some { st with mode := .inner, tasks := st.tasks ++ [⟨st.routers, false, []⟩] }
    else none
  | .handshake i =>
    match st.tasks[i]? with
    | none => none
    | some task => some { st with tasks := st.tasks.set i { task with serving := true } }
  | .reload i =>
    match st.tasks[i]? with
    | none => none
    | some task =>
      if task.serving then
        some { st with
          signals := st.signals ++ [st.routers]
          tasks := st.tasks.map fun task =>
            { task with pending := task.pending ++ [st.signals.length] } }
      else none
  | .receive i =>
    match st.tasks[i]? with
    | none => none
    | some task =>
      match task.pending with
      | [] => none
      | signal :: _ => if task.serving then some (st.reloads i task signal) else none
  | .shutdown i =>
    match st.tasks[i]? with
    | none => none
    | some task =>
      if task.serving then
        some { st with
          continueMain := false
          stopped := task.router :: st.stopped
          tasks := st.tasks.eraseIdx i }
      else none
  | .finish i =>
    match st.tasks[i]? with
    | none => none
    | some _ => some { st with tasks := st.tasks.eraseIdx i }

def State.run (st : State) : List Event → Option State
  | [] => some st
  | event :: rest => (st.step event).bind fun st => State.run st rest

/-- The signal has been received by the tasks subscribed to it: by one, and by all that are still
    there. -/
def State.Received (st : State) (signal : Nat) : Prop :=
  signal ∈ st.received ∧ ∀ task ∈ st.tasks, signal ∉ task.pending

def State.builtBefore (st : State) (signal : Nat) : Nat := st.signals.getD signal 0

/-- In this run every connection that is accepted after a signal has been received is served by a router
    built after it. -/
def Reloaded (events : List Event) : Prop :=
  ∀ earlier later st, events = earlier ++ .accept :: later → State.start.run earlier = some st →
    st.step .accept ≠ none → ∀ signal, st.Received signal → st.builtBefore signal < st.routers

def Stops (st : State) : Event → Prop
  | .receive i => st.tasks[i]?.map Task.router = some st.routers
  | .shutdown i => st.tasks[i]?.map Task.router = some st.routers
  | _ => False

/-- A step after which a signal has been received comes in time: a newer router is in use, or the loop
    does not wait for a connection and is told to stop, now or before. -/
def Timely (st : State) (event : Event) : Prop :=
  ∀ st' ∈ st.step event, ∀ signal ∈ st'.received, st'.Received signal → ¬ st.Received signal →
    st.builtBefore signal < st.routers ∨
      (st.mode ≠ .accepting ∧ (st.routers ∈ st.stopped ∨ Stops st event))

def TimelyRun (st : State) : List Event → Prop
  | [] => True
  | event :: rest => Timely st event ∧ ∀ st' ∈ st.step event, TimelyRun st' rest

/-- Signals are known before they are received, no signal counts routers that are not built, and whatever
    has been received is settled: a newer router is in use, or the loop is told to stop and does not
    wait for a connection. -/
structure Sound (st : State) : Prop where
  known : ∀ signal ∈ st.received, signal < st.signals.length
  sent : ∀ task ∈ st.tasks, ∀ signal ∈ task.pending, signal < st.signals.length
  past : ∀ before ∈ st.signals, before ≤ st.routers
  settled : ∀ signal, st.Received signal → st.builtBefore signal < st.routers ∨
    (st.routers ∈ st.stopped ∧ st.mode ≠ .accepting)

theorem built_before_le {st : State} (sound : Sound st) (signal : Nat) :
    st.builtBefore signal ≤ st.routers := by
  unfold State.builtBefore
  rw [List.getD_eq_getElem?_getD]
  cases found : st.signals[signal]? with
  | none => exact Nat.zero_le _
  | some before => exact sound.past before (List.mem_of_getElem? found)

theorem start_sound : Sound State.start where
  known signal member := by cases member
  sent task member := by cases member
  past before member := by cases member
  settled signal got := by cases got.1

theorem received_before {st st' : State} {signal : Nat} (same : st'.received = st.received)
    (kept : ∀ task ∈ st.tasks, ∃ task' ∈ st'.tasks, task.pending ⊆ task'.pending)
    (got : st'.Received signal) : st.Received signal := by
  obtain ⟨one, all⟩ := got
  refine ⟨same ▸ one, fun task member waiting => ?_⟩
  obtain ⟨task', member', more⟩ := kept task member
  exact all task' member' (more waiting)

section Steps
variable {st st' : State} {event : Event}

theorem sound_departs (sound : Sound st) (timely : Timely st event)
    (taken : st.step event = some st') (tasks : st'.tasks ⊆ st.tasks)
    (signals : st'.signals = st.signals) (routers : st'.routers = st.routers)
    (mode : st'.mode = st.mode) (stopped : st.stopped ⊆ st'.stopped)
    (received : ∀ signal ∈ st'.received, signal < st.signals.length)
    (stops : Stops st event → st.routers ∈ st'.stopped) : Sound st' where
  known := by
    rw [signals]
    exact received
  sent task member := by
    rw [signals]
    exact sound.sent task (tasks member)
  past := by
    rw [signals, routers]
    exact sound.past
  settled signal got := by
    unfold State.builtBefore
    rw [signals, routers, mode]
    by_cases before : st.Received signal
    · rcases sound.settled signal before with newer | told
      · exact .inl newer
      · exact .inr ⟨stopped told.1, told.2⟩
    · rcases timely st' taken signal got.1 got before with newer | ⟨idle, told⟩
      · exact .inl newer
      · refine .inr ⟨?_, idle⟩
        rcases told with already | now
        · exact stopped already
        · exact stops now

theorem sound_stays (sound : Sound st) (received : st'.received = st.received)
    (signals : st'.signals = st.signals)
    (kept : ∀ task ∈ st.tasks, ∃ task' ∈ st'.tasks, task.pending ⊆ task'.pending)
    (sent : ∀ task ∈ st'.tasks, ∀ signal ∈ task.pending, signal < st.signals.length)
    (routers : st.routers ≤ st'.routers)
    (settled : ∀ signal, st.Received signal → st.builtBefore signal < st'.routers ∨
      (st'.routers ∈ st'.stopped ∧ st'.mode ≠ .accepting)) : Sound st' where
  known := by
    rw [received, signals]
    exact sound.known
  sent := by
    rw [signals]
    exact sent
  past before member := by
    rw [signals] at member
    exact Nat.le_trans (sound.past before member) routers
  settled signal got := by
    unfold State.builtBefore
    rw [signals]
    exact settled signal (received_before received kept got)

theorem sound_reload {i : Nat} (sound : Sound st) (taken : st.step (.reload i) = some st') :
    Sound st' := by
  simp only [State.step] at taken
  cases sender : st.tasks[i]? with
  | none =>
    rw [sender] at taken
    cases taken
  | some task =>
    rw [sender] at taken
    obtain ⟨_, same⟩ := Option.ite_none_right_eq_some.mp taken
    cases same
    constructor
    · intro signal member
      have known := sound.known signal member
      rw [List.length_append]
      exact Nat.lt_add_right _ known
    · intro task' member signal waiting
      obtain ⟨task, old, same⟩ := List.mem_map.mp member
      subst same
      rw [List.length_append]
      rcases List.mem_append.mp waiting with before | now
      · exact Nat.lt_add_right _ (sound.sent task old signal before)
      · rw [List.mem_singleton.mp now]
        exact Nat.lt_succ_self _
    · intro before member
      rcases List.mem_append.mp member with old | new
      · exact sound.past before old
      · exact Nat.le_of_eq (List.mem_singleton.mp new)
    · intro signal got
      have old := sound.known signal got.1
      have before : st.Received signal := by
        refine received_before ?_ (fun task member => ?_) got
        · rfl
        · exact ⟨_, List.mem_map.mpr ⟨task, member, rfl⟩, List.subset_append_left _ _⟩
      unfold State.builtBefore
      rw [List.getD_eq_getElem?_getD, List.getElem?_append_left old,
        ← List.getD_eq_getElem?_getD]
      exact sound.settled signal before

theorem handshake_pendings {i : Nat} {task : Task} (found : st.tasks[i]? = some task) :
    (st.tasks.set i { task with serving := true }).map Task.pending = st.tasks.map Task.pending := by
  apply List.ext_getElem?
  intro j
  rw [List.getElem?_map, List.getElem?_map, List.getElem?_set]
  split
  · rename_i same
    subst same
    obtain ⟨inside, here⟩ := List.getElem?_eq_some_iff.mp found
    simp [inside, here]
  · rfl

theorem departing_stops {i : Nat} {task : Task} (found : st.tasks[i]? = some task)
    (current : st.tasks[i]?.map Task.router = some st.routers) :
    st.routers ∈ task.router :: st.stopped := by
  rw [found] at current
  exact Option.some.inj current ▸ List.mem_cons_self

theorem sound_moves {mode : Mode} (sound : Sound st)
    (told : st.routers ∈ st.stopped → st.mode ≠ .accepting → mode ≠ .accepting) :
    Sound { st with mode } := by
  refine sound_stays sound rfl rfl (fun task member => ?_) sound.sent (Nat.le_refl _)
    (fun signal got => ?_)
  · exact ⟨task, member, List.Subset.refl _⟩
  · rcases sound.settled signal got with newer | stopped
    · exact .inl newer
    · exact .inr ⟨stopped.1, told stopped.1 stopped.2⟩

theorem sound_built (sound : Sound st) :
    Sound { st with mode := .inner, routers := st.routers + 1 } := by
  refine sound_stays sound rfl rfl (fun task member => ?_) sound.sent (Nat.le_succ _)
    (fun signal _ => ?_)
  · exact ⟨task, member, List.Subset.refl _⟩
  · exact .inl (Nat.lt_succ_of_le (built_before_le sound signal))

theorem sound_spawned {router : Nat} (sound : Sound st) :
    Sound { st with mode := .inner, tasks := st.tasks ++ [⟨router, false, []⟩] } := by
  refine sound_stays sound rfl rfl (fun task member => ?_) (fun task member signal waiting => ?_)
    (Nat.le_refl _) (fun signal got => ?_)
  · exact ⟨task, List.mem_append_left _ member, List.Subset.refl _⟩
  · rcases List.mem_append.mp member with old | new
    · exact sound.sent task old signal waiting
    · rw [List.mem_singleton.mp new] at waiting
      cases waiting
  · rcases sound.settled signal got with newer | told
    · exact .inl newer
    · exact .inr ⟨told.1, by simp⟩

theorem sound_handshake {i : Nat} {task : Task} (sound : Sound st) (found : st.tasks[i]? = some task) :
    Sound { st with tasks := st.tasks.set i { task with serving := true } } := by
  have pendings := handshake_pendings found
  refine sound_stays sound rfl rfl (fun other member => ?_) (fun other member signal waiting => ?_)
    (Nat.le_refl _) sound.settled
  · have there : other.pending ∈ st.tasks.map Task.pending := List.mem_map_of_mem member
    rw [← pendings] at there
    obtain ⟨other', member', same⟩ := List.mem_map.mp there
    exact ⟨other', member', same ▸ List.Subset.refl _⟩
  · have there := List.mem_map_of_mem (f := Task.pending) member
    rw [pendings] at there
    obtain ⟨other', member', same⟩ := List.mem_map.mp there
    exact sound.sent other' member' signal (same ▸ waiting)

theorem receive_cases {i : Nat} (taken : st.step (.receive i) = some st') :
    ∃ task signal rest, st.tasks[i]? = some task ∧ task.pending = signal :: rest ∧
      st' = st.reloads i task signal := by
  simp only [State.step] at taken
  cases found : st.tasks[i]? with
  | none =>
    rw [found] at taken
    cases taken
  | some task =>
    rw [found] at taken
    cases waiting : task.pending with
    | nil =>
      simp only [waiting] at taken
      cases taken
    | cons signal rest =>
      simp only [waiting] at taken
      obtain ⟨_, same⟩ := Option.ite_none_right_eq_some.mp taken
      exact ⟨task, signal, rest, rfl, waiting, (Option.some.inj same).symm⟩

theorem shutdown_cases {i : Nat} (taken : st.step (.shutdown i) = some st') :
    ∃ task, st.tasks[i]? = some task ∧ st' = { st with
      continueMain := false
      stopped := task.router :: st.stopped
      tasks := st.tasks.eraseIdx i } := by
  simp only [State.step] at taken
  cases found : st.tasks[i]? with
  | none =>
    rw [found] at taken
    cases taken
  | some task =>
    rw [found] at taken
    obtain ⟨_, same⟩ := Option.ite_none_right_eq_some.mp taken
    exact ⟨task, rfl, (Option.some.inj same).symm⟩

theorem sound_receive {i : Nat} (sound : Sound st) (timely : Timely st (.receive i))
    (taken : st.step (.receive i) = some st') : Sound st' := by
  obtain ⟨task, signal, rest, found, waiting, same⟩ := receive_cases taken
  subst same
  refine sound_departs sound timely taken List.eraseIdx_subset rfl rfl rfl
    (List.subset_cons_self _ _) (fun other member => ?_) (departing_stops found)
  simp only [State.reloads] at member
  split at member
  · rcases List.mem_cons.mp member with new | old
    · subst new
      exact sound.sent task (List.mem_of_getElem? found) _ (by simp [waiting])
    · exact sound.known other old
  · exact sound.known other member

theorem sound_step (sound : Sound st) (timely : Timely st event) (taken : st.step event = some st') :
    Sound st' := by
  cases event with
  | testOuter =>
    obtain ⟨_, same⟩ := Option.ite_none_right_eq_some.mp taken
    cases same
    exact sound_moves sound fun _ _ => by split <;> simp
  | build ok =>
    obtain ⟨_, same⟩ := Option.ite_none_right_eq_some.mp taken
    cases same
    cases ok with
    | true => exact sound_built sound
    | false => exact sound_moves sound fun _ _ => by simp
  | testInner =>
    obtain ⟨_, same⟩ := Option.ite_none_right_eq_some.mp taken
    cases same
    exact sound_moves sound fun told _ => by simp [told]
  | accept =>
    obtain ⟨waits, same⟩ := Option.ite_none_right_eq_some.mp taken
    cases same
    exact sound_moves sound fun _ idle => absurd waits idle
  | spawn =>
    obtain ⟨_, same⟩ := Option.ite_none_right_eq_some.mp taken
    cases same
    exact sound_spawned sound
  | handshake i =>
    simp only [State.step] at taken
    cases found : st.tasks[i]? with
    | none =>
      rw [found] at taken
      cases taken
    | some task =>
      rw [found] at taken
      cases taken
      exact sound_handshake sound found
  | reload i => exact sound_reload sound taken
  | receive i => exact sound_receive sound timely taken
  | shutdown i =>
    obtain ⟨task, found, same⟩ := shutdown_cases taken
    subst same
    exact sound_departs sound timely taken List.eraseIdx_subset rfl rfl rfl
      (List.subset_cons_self _ _) sound.known (departing_stops found)
  | finish i =>
    have step := taken
    simp only [State.step] at step
    cases found : st.tasks[i]? with
    | none =>
      rw [found] at step
      cases step
    | some task =>
      rw [found] at step
      cases step
      refine sound_departs sound timely taken List.eraseIdx_subset rfl rfl rfl
        (List.Subset.refl _) sound.known ?_
      intro stops
      cases stops

theorem sound_run (sound : Sound st) {events : List Event} (timely : TimelyRun st events)
    (run : st.run events = some st') : Sound st' := by
  induction events generalizing st with
  | nil =>
    cases run
    exact sound
  | cons event rest ih =>
    obtain ⟨next, taken, run⟩ := Option.bind_eq_some_iff.mp run
    exact ih (sound_step sound timely.1 taken) (timely.2 next taken) run

theorem timely_earlier {earlier later : List Event} (timely : TimelyRun st (earlier ++ later)) :
    TimelyRun st earlier := by
  induction earlier generalizing st with
  | nil => trivial
  | cons event rest ih => exact ⟨timely.1, fun next taken => ih (timely.2 next taken)⟩

end Steps

/-- A run whose steps are timely lets every reload take effect. -/
theorem timely_runs_reload {events : List Event} (timely : TimelyRun .start events) :
    Reloaded events := by
  intro earlier later st whole reached accepts signal got
  rw [whole] at timely
  have sound := sound_run start_sound (timely_earlier timely) reached
  rcases sound.settled signal got with newer | told
  · exact newer
  · have waits : st.mode = .accepting := by
      by_contra other
      exact accepts (if_neg other)
    exact absurd waits told.2

section Samples

instance (st : State) (signal : Nat) : Decidable (st.Received signal) :=
  inferInstanceAs (Decidable (_ ∧ _))

instance (st : State) : (event : Event) → Decidable (Stops st event)
  | .receive _ => inferInstanceAs (Decidable (_ = _))
  | .shutdown _ => inferInstanceAs (Decidable (_ = _))
  | .testOuter => .isFalse id
  | .build _ => .isFalse id
  | .testInner => .isFalse id
  | .accept => .isFalse id
  | .spawn => .isFalse id
  | .handshake _ => .isFalse id
  | .reload _ => .isFalse id
  | .finish _ => .isFalse id

instance (st : State) (event : Event) : Decidable (Timely st event) :=
  inferInstanceAs (Decidable (∀ st' ∈ st.step event, ∀ signal ∈ st'.received, _ → _ → _))

def decideTimelyRun (st : State) : (events : List Event) → Decidable (TimelyRun st events)
  | [] => .isTrue trivial
  | event :: rest =>
    have : ∀ st', Decidable (TimelyRun st' rest) := fun st' => decideTimelyRun st' rest
    inferInstanceAs (Decidable (Timely st event ∧ ∀ st' ∈ st.step event, TimelyRun st' rest))

instance (st : State) (events : List Event) : Decidable (TimelyRun st events) :=
  decideTimelyRun st events

def sampleConnection : List Event :=
  [.testOuter, .build true, .testInner, .accept, .spawn, .handshake 0, .reload 0]

end Samples

theorem early_signal_reloads :
    Reloaded (sampleConnection ++
      [.receive 0, .testInner, .testOuter, .build true, .testInner, .accept]) :=
  timely_runs_reload (by decide)

/-- The loop passes its test and waits, the only task receives the signal, and the next connection gets
    the old router. -/
theorem waiting_loop_keeps_router : ¬ ∀ events, Reloaded events := by
  intro reloaded
  have state : State.start.run (sampleConnection ++ [.testInner, .receive 0]) =
      some ⟨.accepting, 1, [1], true, [], [1], [0]⟩ := by decide
  have newer := reloaded (sampleConnection ++ [.testInner, .receive 0] ++ [.accept]) _ [] _ rfl state
    (by decide) 0 (by decide)
  exact absurd newer (by decide)

end VestibuleServing
