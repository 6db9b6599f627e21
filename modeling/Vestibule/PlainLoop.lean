import Vestibule.SiteAccess

/-!
The loop of `main` without TLS: it subscribes to the channel, builds a router, serves until a signal comes,
waits for its connections to end, and starts again. The receiver goes with the future that waits for the
signal, so a command to reload that comes while the connections end is heard by nobody.
-/
namespace VestibulePlain
open VestibuleRust KeyedList VestibuleAdmin VestibuleServices VestibuleSaves VestibuleLoading VestibuleSite
  VestibuleCopyMove StepRuns

/-- Where `main` is: before the test of its flag, about to build, serving, waiting for the connections to
    end, or done, with or without success. -/
inductive Phase where
  | testing
  | building
  | serving
  | draining
  | ended (ok : Bool)
  deriving DecidableEq, Repr

/-- The number of the router in service, the signals in the channel, and the router of each connection. -/
structure Loop where
  site : State
  phase : Phase
  continueMain : Bool
  current : Nat
  waiting : Nat
  connections : List Nat

def Loop.start (disk : Disk) : Loop :=
  ⟨.start disk, .testing, true, 0, 0, []⟩

/-- A step of `main`: its test, a build with the port bound or not, the reception of a command or of the
    signal to terminate, the end of the server. Or a step of a connection, or of a save. -/
inductive LoopEvent (Salt Ip : Type) where
  | test
  | build (bound : Bool)
  | accept
  | request (i : Nat) (r : SiteRequest Salt Ip)
  | close (i : Nat)
  | receive
  | terminate
  | drained
  | save (i : Nat) (outcome : WriteOutcome)

section Machine
variable {Salt Ip : Type} (crates : Crates Salt Ip)

def loopStep (st : Loop) : LoopEvent Salt Ip → Option (Loop)
  | .test =>
    if st.phase = .testing then
      some { st with phase := if st.continueMain then .building else .ended true }
    else none
  | .build bound =>
    if st.phase = .building then
      match step crates st.site .build with
      | none => some { st with phase := .ended false }
      | some site =>
        if bound then some ⟨site, .serving, st.continueMain, st.site.routers.length, 0, []⟩
        else some { st with phase := .ended false }
    else none
  | .accept =>
    if st.phase = .serving then some { st with connections := st.connections ++ [st.current] } else none
  | .request i r =>
    match st.connections[i]? with
    | none => none
    | some router =>
      match respond crates st.site router r (st.phase = .serving) with
      | none => none
      | some (site, answer) => some { st with
          site
          waiting := if answer = .page "Apps reloaded !" then st.waiting + 1 else st.waiting }
  | .close i =>
    if i < st.connections.length then some { st with connections := st.connections.eraseIdx i } else none
  | .receive =>
    if st.phase = .serving ∧ 0 < st.waiting then some { st with phase := .draining, waiting := 0 } else none
  | .terminate =>
    if st.phase = .serving then
      some { st with continueMain := false, phase := .draining, waiting := 0 }
    else none
  | .drained =>
    if st.phase = .draining ∧ st.connections = [] then some { st with phase := .testing } else none
  | .save i outcome =>
    if st.phase = .ended true ∨ st.phase = .ended false then none
    else (step crates st.site (.save i outcome)).map fun site => { st with site }

inductive Moves (st : Loop) : LoopEvent Salt Ip → Loop → Prop where
  | test (phase : st.phase = .testing) :
      Moves st .test { st with phase := if st.continueMain then .building else .ended true }
  | built (phase : st.phase = .building) (site : State)
      (made : step crates st.site .build = some site) :
      Moves st (.build true) ⟨site, .serving, st.continueMain, st.site.routers.length, 0, []⟩
  | failed (phase : st.phase = .building) (bound : Bool)
      (fails : bound = false ∨ step crates st.site .build = none) :
      Moves st (.build bound) { st with phase := .ended false }
  | accept (phase : st.phase = .serving) :
      Moves st .accept { st with connections := st.connections ++ [st.current] }
  | request (i : Nat) (r : SiteRequest Salt Ip) (router : Nat) (site : State) (answer : SiteAnswer)
      (connected : st.connections[i]? = some router)
      (answered : respond crates st.site router r (st.phase = .serving) = some (site, answer)) :
      Moves st (.request i r) { st with
        site
        waiting := if answer = .page "Apps reloaded !" then st.waiting + 1 else st.waiting }
  | close (i : Nat) (connected : i < st.connections.length) :
      Moves st (.close i) { st with connections := st.connections.eraseIdx i }
  | receive (phase : st.phase = .serving) (sent : 0 < st.waiting) :
      Moves st .receive { st with phase := .draining, waiting := 0 }
  | terminate (phase : st.phase = .serving) :
      Moves st .terminate { st with continueMain := false, phase := .draining, waiting := 0 }
  | drained (phase : st.phase = .draining) (bare : st.connections = []) :
      Moves st .drained { st with phase := .testing }
  | save (i : Nat) (outcome : WriteOutcome) (site : State)
      (runs : st.phase ≠ .ended true ∧ st.phase ≠ .ended false)
      (saved : step crates st.site (.save i outcome) = some site) : Moves st (.save i outcome) { st with site }

end Machine

section Steps
variable {Salt Ip : Type} {crates : Crates Salt Ip} {st st' : Loop}
  {event : LoopEvent Salt Ip}

theorem loop_step_iff : loopStep crates st event = some st' ↔ Moves crates st event st' := by
  constructor
  · intro taken
    cases event with
    | test =>
      obtain ⟨phase, same⟩ := Option.ite_none_right_eq_some.mp taken
      cases same
      exact .test phase
    | build bound =>
      obtain ⟨phase, same⟩ := Option.ite_none_right_eq_some.mp taken
      cases made : step crates st.site (.build : Event Salt Ip) with
      | none =>
        rw [made] at same
        cases same
        exact .failed phase bound (.inr made)
      | some site =>
        rw [made] at same
        cases bound with
        | false =>
          cases same
          exact .failed phase false (.inl rfl)
        | true =>
          cases same
          exact .built phase site made
    | accept =>
      obtain ⟨phase, same⟩ := Option.ite_none_right_eq_some.mp taken
      cases same
      exact .accept phase
    | request i r =>
      simp only [loopStep] at taken
      split at taken
      · cases taken
      · rename_i router connected
        split at taken
        · cases taken
        · rename_i site answer answered
          cases taken
          exact .request i r router site answer connected answered
    | close i =>
      obtain ⟨connected, same⟩ := Option.ite_none_right_eq_some.mp taken
      cases same
      exact .close i connected
    | receive =>
      obtain ⟨⟨phase, sent⟩, same⟩ := Option.ite_none_right_eq_some.mp taken
      cases same
      exact .receive phase sent
    | terminate =>
      obtain ⟨phase, same⟩ := Option.ite_none_right_eq_some.mp taken
      cases same
      exact .terminate phase
    | drained =>
      obtain ⟨⟨phase, bare⟩, same⟩ := Option.ite_none_right_eq_some.mp taken
      cases same
      exact .drained phase bare
    | save i outcome =>
      obtain ⟨runs, same⟩ := Option.ite_none_left_eq_some.mp taken
      obtain ⟨site, saved, same⟩ := Option.map_eq_some_iff.mp same
      cases same
      exact .save i outcome site (not_or.mp runs) saved
  · intro moves
    cases moves with
    | test phase => exact if_pos phase
    | built phase site made => simp [loopStep, phase, made]
    | failed phase bound fails =>
      rcases fails with unbound | fails
      · subst unbound
        simp only [loopStep, phase, ↓reduceIte]
        split <;> rfl
      · simp [loopStep, phase, fails]
    | accept phase => exact if_pos phase
    | request i r router site answer connected answered => simp only [loopStep, connected, answered]
    | close i connected => exact if_pos connected
    | receive phase sent => exact if_pos ⟨phase, sent⟩
    | terminate phase => exact if_pos phase
    | drained phase bare => exact if_pos ⟨phase, bare⟩
    | save i outcome site runs saved =>
      simp only [loopStep, saved, Option.map_some, if_neg (not_or.mpr runs)]

theorem build_adds {before after : State} (made : step crates before .build = some after) :
    after.routers ≠ before.routers := by
  rcases step_cases made with ⟨_, _, _, _, left⟩ | ⟨_, _, _, _, other, _⟩ | ⟨_, _, _, other, _⟩
  · rw [left]
    simp
  · cases other
  · cases other

theorem moves_routers (moves : Moves crates st event st') : st'.site.routers = st.site.routers ∨
    event = .build true ∧ st.phase = .building ∧ ∃ config map,
      load crates st.site.disk = .ok (config, map) ∧
      st'.site.routers = st.site.routers ++ [map] ∧ st'.current = st.site.routers.length ∧
      st'.phase = .serving ∧ st'.connections = [] ∧ st'.waiting = 0 := by
  cases moves with
  | built phase site made =>
    rcases step_cases made with ⟨_, config, map, loaded, same⟩ | ⟨_, _, _, _, other, _⟩ |
      ⟨_, _, _, other, _⟩
    · subst same
      exact .inr ⟨rfl, phase, config, map, loaded, rfl, rfl, rfl, rfl, rfl⟩
    · cases other
    · cases other
  | request i r router site answer connected answered =>
    have taken : step crates st.site (.request router r (st.phase = .serving)) = some site := by
      simp only [step, answered, Option.map_some]
    exact .inl (step_routers taken (by simp))
  | save i outcome site runs saved =>
    have kept := @step_routers Salt Ip crates _ _ (.save i outcome) saved (by simp)
    exact .inl kept
  | test | failed | accept | close | receive | terminate | drained => exact .inl rfl

def Staffed (st : Loop) : Prop :=
  st.current + 1 = st.site.routers.length ∧ ∀ router ∈ st.connections, router = st.current

def Idle (st : Loop) : Prop := st.connections = [] ∧ st.waiting = 0

/-- There are connections while the server is there, signals wait while there is somebody to receive them,
    and after the signal to terminate nothing is built. -/
def Sound (st : Loop) : Prop :=
  match st.phase with
  | .testing => Idle st
  | .building => Idle st ∧ st.continueMain = true
  | .serving => Staffed st ∧ st.continueMain = true
  | .draining => Staffed st ∧ st.waiting = 0
  | .ended ok => Idle st ∧ (ok = false → st.continueMain = true)

theorem sound_start (disk : Disk) : Sound (Loop.start disk) := ⟨rfl, rfl⟩

theorem sound_connected (sound : Sound st) (connected : st.connections ≠ []) :
    Staffed st ∧ (st.phase = .serving ∧ st.continueMain = true ∨ st.phase = .draining ∧ st.waiting = 0) := by
  unfold Sound at sound
  cases phase : st.phase with
  | testing =>
    rw [phase] at sound
    exact absurd sound.1 connected
  | building =>
    rw [phase] at sound
    exact absurd sound.1.1 connected
  | serving =>
    rw [phase] at sound
    exact ⟨sound.1, .inl ⟨rfl, sound.2⟩⟩
  | draining =>
    rw [phase] at sound
    exact ⟨sound.1, .inr ⟨rfl, sound.2⟩⟩
  | ended ok =>
    rw [phase] at sound
    exact absurd sound.1.1 connected

theorem sound_moves (sound : Sound st) (moves : Moves crates st event st') : Sound st' := by
  have routers := moves_routers moves
  have before := sound
  unfold Sound at sound ⊢
  cases moves with
  | test phase =>
    rw [phase] at sound
    cases flag : st.continueMain with
    | true => exact ⟨sound, rfl⟩
    | false => exact ⟨sound, fun bad => by cases bad⟩
  | built phase site made =>
    rw [phase] at sound
    obtain ⟨_, _, _, _, _, same, _⟩ := routers.resolve_left fun same => build_adds made same
    refine ⟨⟨?_, fun router member => by cases member⟩, sound.2⟩
    dsimp only at same ⊢
    rw [same, List.length_append, List.length_singleton]
  | failed phase bound fails =>
    rw [phase] at sound
    exact ⟨sound.1, fun _ => sound.2⟩
  | accept phase =>
    simp only [phase] at sound ⊢
    refine ⟨⟨sound.1.1, fun router member => ?_⟩, sound.2⟩
    rcases List.mem_append.mp member with old | new
    · exact sound.1.2 router old
    · exact List.mem_singleton.mp new
  | request i r router site answer connected answered =>
    have same : site.routers = st.site.routers := routers.resolve_right (by simp)
    obtain ⟨staffed, phases⟩ := sound_connected before
      (List.ne_nil_of_mem (List.mem_of_getElem? connected))
    have staffed' : st.current + 1 = site.routers.length := same ▸ staffed.1
    rcases phases with ⟨phase, flag⟩ | ⟨phase, bare⟩
    · simp only [phase]
      exact ⟨⟨staffed', staffed.2⟩, flag⟩
    · simp only [phase]
      refine ⟨⟨staffed', staffed.2⟩, ?_⟩
      have quiet := unheard_quiet answered (by rw [phase]; rfl)
      simp [quiet, bare]
  | close i connected =>
    obtain ⟨staffed, phases⟩ := sound_connected before (List.ne_nil_of_length_pos (by omega))
    have staffed' : ∀ router ∈ st.connections.eraseIdx i, router = st.current :=
      fun router member => staffed.2 router (List.eraseIdx_subset member)
    rcases phases with ⟨phase, rest⟩ | ⟨phase, rest⟩
    · simp only [phase]
      exact ⟨⟨staffed.1, staffed'⟩, rest⟩
    · simp only [phase]
      exact ⟨⟨staffed.1, staffed'⟩, rest⟩
  | receive phase sent =>
    rw [phase] at sound
    exact ⟨sound.1, rfl⟩
  | terminate phase =>
    rw [phase] at sound
    exact ⟨sound.1, rfl⟩
  | drained phase bare =>
    rw [phase] at sound
    exact ⟨bare, sound.2⟩
  | save i outcome site runs saved =>
    have same : site.routers = st.site.routers := routers.resolve_right (by simp)
    cases phase : st.phase with
    | testing =>
      simp only [phase] at sound
      exact sound
    | building =>
      simp only [phase] at sound
      exact sound
    | serving =>
      simp only [phase] at sound
      exact ⟨⟨same ▸ sound.1.1, sound.1.2⟩, sound.2⟩
    | draining =>
      simp only [phase] at sound
      exact ⟨⟨same ▸ sound.1.1, sound.1.2⟩, sound.2⟩
    | ended ok => cases ok <;> simp [phase] at runs

end Steps

section Following
variable {Salt Ip : Type} (crates : Crates Salt Ip)

def shadow (st : Loop) : LoopEvent Salt Ip → List (Event Salt Ip)
  | .build bound =>
    if bound = true ∧ (step crates st.site (.build : Event Salt Ip)).isSome then [.build] else []
  | .request i r =>
    match st.connections[i]? with
    | none => []
    | some router => [.request router r (st.phase = .serving)]
  | .save i outcome => [.save i outcome]
  | _ => []

variable {crates}

theorem shadow_followed (st : Loop) (event : LoopEvent Salt Ip) (st' : Loop)
    (taken : loopStep crates st event = some st') :
    run (step crates) st.site (shadow crates st event) = some st'.site := by
  have moves := loop_step_iff.mp taken
  cases moves with
  | built phase site made => simp [shadow, made, run]
  | failed phase bound fails =>
    rcases fails with unbound | fails
    · simp [shadow, unbound, run]
    · simp [shadow, fails, run]
  | request i r router site answer connected answered =>
    simp [shadow, connected, run, step, answered]
  | save i outcome site runs saved => simp [shadow, run, saved]
  | test | accept | close | receive | terminate | drained => rfl

end Following

section Runs
variable {Salt Ip : Type} {crates : Crates Salt Ip} {disk : Disk}
  {events : List (LoopEvent Salt Ip)} {st : Loop}

theorem sound_run (ran : run (loopStep crates) (.start disk) events = some st) : Sound st :=
  run_rule (I := fun _ st => Sound st) (sound_start disk)
    (fun _ _ _ _ _ sound taken => sound_moves sound (loop_step_iff.mp taken)) ran

theorem site_ran (ran : run (loopStep crates) (.start disk) events = some st) :
    run (step crates) (.start disk) (trace (loopStep crates) (shadow crates) (.start disk) events) =
      some st.site :=
  run_followed shadow_followed ran

def Reloads (crates : Crates Salt Ip) (st : Loop) (event : LoopEvent Salt Ip) : Prop :=
  ∃ i r router site, event = .request i r ∧ st.connections[i]? = some router ∧
    respond crates st.site router r (st.phase = .serving) = some (site, .page "Apps reloaded !")

/-- The services in force are those of the file as it was when they were built, and with no signal in the
    channel no command to reload has been answered since. -/
def InForce (crates : Crates Salt Ip) (start : Loop) (events : List (LoopEvent Salt Ip))
    (st : Loop) : Prop :=
  ∃ past later before built config map, events = past ++ .build true :: later ∧
    run (loopStep crates) start past = some before ∧
    load crates before.site.disk = .ok (config, map) ∧
    st.site.routers[st.current]? = some map ∧
    loopStep crates before (.build true) = some built ∧ run (loopStep crates) built later = some st ∧
    (st.waiting = 0 → ¬ Occurred (loopStep crates) built later fun _ => Reloads crates)

theorem in_force_step {start st' : Loop} {event : LoopEvent Salt Ip}
    (held : InForce crates start events st) (moves : Moves crates st event st')
    (routers : st'.site.routers = st.site.routers) (current : st'.current = st.current)
    (quiet : st'.waiting = 0 → st.waiting = 0 ∧ ¬ Reloads crates st event) :
    InForce crates start (events ++ [event]) st' := by
  obtain ⟨past, later, before, built, config, map, whole, earlier, loaded, inForce, made, ran, silent⟩ := held
  refine ⟨past, later ++ [event], before, built, config, map, by simp [whole], earlier, loaded,
    by rw [routers, current, inForce], made, run_concat.mpr ⟨st, ran, loop_step_iff.mpr moves⟩, ?_⟩
  intro waits
  obtain ⟨still, other⟩ := quiet waits
  rw [occurred_concat ran]
  exact not_or.mpr ⟨silent still, other⟩

/-- No command to reload is lost. While the server waits for connections and no signal is in the channel,
    the services are those of the file as it was at a build, and no command has been answered since that
    build; and every connection there is goes to the router of that build. -/
theorem reload_takes_effect (ran : run (loopStep crates) (.start disk) events = some st)
    (serving : st.phase = .serving) :
    InForce crates (.start disk) events st ∧ ∀ router ∈ st.connections, router = st.current := by
  constructor
  · refine run_rule (I := fun events st => st.phase = .serving → InForce crates (.start disk) events st)
      (fun phase => by cases phase) ?_ ran serving
    intro past event before after earlier ih taken serving
    have moves := loop_step_iff.mp taken
    have routers := moves_routers moves
    have whole := moves
    cases moves with
    | test phase =>
      dsimp only at serving
      split at serving <;> cases serving
    | built phase site made =>
      obtain ⟨_, _, config, map, loaded, routers', current, _⟩ := routers.resolve_left fun same =>
        build_adds made same
      refine ⟨past, [], before, _, config, map, rfl, earlier, loaded, ?_, taken, rfl,
        fun _ => not_occurred⟩
      rw [routers', current, List.getElem?_append_right (Nat.le_refl _), Nat.sub_self]
      rfl
    | failed | receive | terminate | drained => cases serving
    | accept phase =>
      refine in_force_step (ih phase) whole rfl rfl fun waits => ⟨waits, ?_⟩
      rintro ⟨_, _, _, _, other, _⟩
      cases other
    | request i r router site answer connected answered =>
      refine in_force_step (ih serving) whole (routers.resolve_right (by simp)) rfl fun waits => ?_
      dsimp only at waits
      split at waits
      · cases waits
      · rename_i quiet
        refine ⟨waits, ?_⟩
        rintro ⟨_, _, _, _, same, connected', answered'⟩
        cases same
        rw [connected] at connected'
        cases connected'
        rw [answered] at answered'
        cases answered'
        exact quiet rfl
    | close i connected =>
      refine in_force_step (ih serving) whole rfl rfl fun waits => ⟨waits, ?_⟩
      rintro ⟨_, _, _, _, other, _⟩
      cases other
    | save i outcome site runs saved =>
      refine in_force_step (ih serving) whole (routers.resolve_right (by simp)) rfl fun waits => ⟨waits, ?_⟩
      rintro ⟨_, _, _, _, other, _⟩
      cases other
  · have sound := sound_run ran
    unfold Sound at sound
    rw [serving] at sound
    exact sound.1.2

theorem down_phase (sound : Sound st) (down : st.continueMain = false) :
    st.phase = .draining ∨ st.phase = .testing ∨ st.phase = .ended true := by
  unfold Sound at sound
  cases phase : st.phase with
  | testing => exact .inr (.inl rfl)
  | draining => exact .inl rfl
  | building =>
    rw [phase] at sound
    exact absurd (down.symm.trans sound.2) (by decide)
  | serving =>
    rw [phase] at sound
    exact absurd (down.symm.trans sound.2) (by decide)
  | ended ok =>
    rw [phase] at sound
    cases ok with
    | true => exact .inr (.inr rfl)
    | false => exact absurd (down.symm.trans (sound.2 rfl)) (by decide)

structure Closing (st st' : Loop) : Prop where
  sound : Sound st'
  down : st'.continueMain = false
  routers : st'.site.routers = st.site.routers
  fewer : st'.connections.length ≤ st.connections.length

theorem closing_moves {before after : Loop} {event : LoopEvent Salt Ip}
    (closing : Closing st before) (moves : Moves crates before event after) : Closing st after := by
  have sound := sound_moves closing.sound moves
  have routers := moves_routers moves
  have down := down_phase closing.sound closing.down
  cases moves with
  | test phase => exact ⟨sound, closing.down, closing.routers, closing.fewer⟩
  | built phase | failed phase | accept phase | receive phase | terminate phase =>
    rw [phase] at down
    rcases down with other | other | other <;> cases other
  | request i r router site answer connected answered =>
    have kept : site.routers = before.site.routers := routers.resolve_right (by simp)
    exact ⟨sound, closing.down, kept.trans closing.routers, closing.fewer⟩
  | close i connected =>
    refine ⟨sound, closing.down, closing.routers, ?_⟩
    dsimp only
    rw [List.length_eraseIdx, if_pos connected]
    have fewer := closing.fewer
    omega
  | drained phase bare => exact ⟨sound, closing.down, closing.routers, closing.fewer⟩
  | save i outcome site runs saved =>
    have kept : site.routers = before.site.routers := routers.resolve_right (by simp)
    exact ⟨sound, closing.down, kept.trans closing.routers, closing.fewer⟩

theorem closes_run (st : Loop) : run (loopStep crates) st
    (List.replicate st.connections.length (.close 0 : LoopEvent Salt Ip)) =
      some { st with connections := [] } := by
  obtain ⟨site, phase, flag, current, waiting, connections⟩ := st
  induction connections with
  | nil => rfl
  | cons first rest ih =>
    rw [List.length_cons, List.replicate_succ, run]
    exact ih

/-- After the signal to terminate nothing is built and nobody connects any more, and once the connections
    that are left have been closed the process ends with success. -/
theorem shutdown_completes (ran : run (loopStep crates) (.start disk) events = some st)
    (down : st.continueMain = false) :
    (∀ more st', run (loopStep crates) st more = some st' →
      (st'.phase = .draining ∨ st'.phase = .testing ∨ st'.phase = .ended true) ∧
        st'.site.routers = st.site.routers ∧ st'.connections.length ≤ st.connections.length) ∧
    ∃ more st', run (loopStep crates) st more = some st' ∧ st'.phase = .ended true ∧ st'.site = st.site := by
  have sound := sound_run ran
  constructor
  · intro more st' ran'
    have closing : Closing st st' := run_rule (I := fun _ st' => Closing st st')
      ⟨sound, down, rfl, Nat.le_refl _⟩
      (fun _ _ _ _ _ closing taken => closing_moves closing (loop_step_iff.mp taken)) ran'
    exact ⟨down_phase closing.sound closing.down, closing.routers, closing.fewer⟩
  · rcases down_phase sound down with phase | phase | phase
    · refine ⟨List.replicate st.connections.length (.close 0) ++ [.drained, .test],
        { st with connections := [], phase := .ended true }, ?_, rfl, rfl⟩
      rw [run_append, closes_run]
      simp [run, loopStep, phase, down]
    · refine ⟨[.test], { st with phase := .ended true }, ?_, rfl, rfl⟩
      simp [run, loopStep, phase, down]
    · exact ⟨[], st, rfl, phase, rfl⟩

end Runs

section Builds
variable {Salt Ip : Type} {crates : Crates Salt Ip} {disk : Disk}
  {config : Config}

/-- A configuration with the settings of another, all of whose apps can be served under these. -/
def Fits (http : Http) (config now : Config) : Prop :=
  now.settings = config.settings ∧ ∀ app ∈ now.apps, Servable http config app

theorem handled_fits {now next : Config} {request : AdminRequest Salt} {answer : Answer}
    (fits : Fits crates.http.toHttp config now)
    (added : ∀ payload, request = .addApp payload → Servable crates.http.toHttp config payload)
    (handled : handle crates.argon2 now request = .ok (next, answer)) :
    Fits crates.http.toHttp config next := by
  have settings := (handle_settings handled).trans fits.1
  refine ⟨settings, fun app member => (servable_settings settings).mp ?_⟩
  refine handle_servable (fun app member => (servable_settings fits.1).mpr (fits.2 app member))
    (fun payload same => (servable_settings fits.1).mpr (added payload same)) handled app member

structure AllFit (crates : Crates Salt Ip) (config : Config) (st : State) : Prop where
  read : ∃ file now, readConfig st.disk = some file ∧ crates.yaml.fromStr file = some now ∧
    Fits crates.http.toHttp config now
  saving : ∀ saving ∈ st.saving, Fits crates.http.toHttp config saving.config

/-- The apps that come in requests can be served, and no save breaks off. -/
structure Orderly (crates : Crates Salt Ip) (config : Config) (event : Event Salt Ip) : Prop where
  apps : ∀ router r heard payload, event = .request router r heard →
    crates.json.app r.asked = .ok payload → Servable crates.http.toHttp config payload
  saves : ∀ i count, event ≠ .save i (.brokeOff count)

theorem all_fit_step {st st' : State} {event : Event Salt Ip} (fit : AllFit crates config st)
    (orderly : Orderly crates config event) (spared : ¬ Overwrites crates st event)
    (taken : step crates st event = some st') : AllFit crates config st' := by
  have whole := taken
  rcases step_cases taken with ⟨_, _, _, _, same⟩ | ⟨router, r, heard, answer, same, answered⟩ |
    ⟨i, outcome, saving, same, waits, left⟩
  · subst same
    exact ⟨fit.read, fit.saving⟩
  · subst same
    obtain ⟨file, now, stored, read, fits⟩ := fit.read
    refine ⟨⟨file, now, (spared_reads spared whole).trans stored, read, fits⟩, fun saving member => ?_⟩
    rcases respond_leaves answered with leaves | ⟨_, _, _, _, _, _, kept, _⟩
    · cases leaves with
      | nothing answer => exact fit.saving saving member
      | cookie => exact fit.saving saving member
      | save now' next user request answer read' admin origin handled =>
        rcases List.mem_append.mp member with old | new
        · exact fit.saving saving old
        · rw [List.mem_singleton.mp new]
          unfold fromFile at read'
          rw [stored, on_file_some, read] at read'
          cases read'
          exact handled_fits fits
            (fun payload asked => orderly.apps router r heard payload rfl (origin payload asked)) handled
    · subst kept
      exact fit.saving saving member
  · subst left
    refine ⟨?_, fun other member => fit.saving other (List.eraseIdx_subset member)⟩
    obtain ⟨file, now, stored, read, fits⟩ := fit.read
    have reads := @save_reads st.disk crates.yaml outcome saving.config file stored
    cases outcome with
    | written =>
      obtain ⟨settings, apps⟩ := fit.saving saving (List.mem_of_getElem? waits)
      exact ⟨_, saving.config.stored, reads, crates.yaml.back _, settings, apps⟩
    | notOpened => exact ⟨file, now, reads, read, fits⟩
    | brokeOff count => exact absurd same (orderly.saves i count)

theorem all_fit_loads {st : State} (fit : AllFit crates config st) :
    ∃ now map, load crates st.disk = .ok (now, map) := by
  obtain ⟨file, now, stored, read, settings, apps⟩ := fit.read
  have there : fromFile crates st.disk = some now := by
    unfold fromFile
    rw [stored, on_file_some, read]
  exact ⟨now, load_ok_iff.mpr ⟨there, fun app member => (servable_settings settings).mpr (apps app member)⟩⟩

theorem loads_fit {map : ConfigMap} (loads : load crates disk = .ok (config, map)) :
    AllFit crates config (.start disk) := by
  obtain ⟨there, apps⟩ := load_ok_iff.mp ⟨map, loads⟩
  unfold fromFile at there
  cases stored : readConfig disk with
  | none =>
    rw [stored] at there
    cases there
  | some file =>
    rw [stored, on_file_some] at there
    refine ⟨⟨file, config, stored, there, rfl, apps⟩, fun saving member => ?_⟩
    cases member

structure OrderlyLoop (crates : Crates Salt Ip) (config : Config) (event : LoopEvent Salt Ip) :
    Prop where
  apps : ∀ i r payload, event = .request i r → crates.json.app r.asked = .ok payload →
    Servable crates.http.toHttp config payload
  saves : ∀ i count, event ≠ .save i (.brokeOff count)
  bound : event ≠ .build false

theorem shadow_orderly {event : LoopEvent Salt Ip} (orderly : OrderlyLoop crates config event)
    (st : Loop) {event' : Event Salt Ip} (member : event' ∈ shadow crates st event) :
    Orderly crates config event' := by
  cases event with
  | build bound =>
    simp only [shadow, List.mem_ite_nil_right, List.mem_singleton] at member
    rw [member.2]
    exact ⟨fun _ _ _ _ other => (by cases other), fun _ _ other => (by cases other)⟩
  | request i r =>
    simp only [shadow] at member
    split at member
    · cases member
    · rw [List.mem_singleton.mp member]
      refine ⟨fun _ _ _ payload same asked => ?_, fun _ _ other => by cases other⟩
      cases same
      exact orderly.apps i r payload rfl asked
  | save i outcome =>
    rw [List.mem_singleton.mp member]
    refine ⟨fun _ _ _ _ other => (by cases other), fun j count same => ?_⟩
    cases same
    exact orderly.saves i count rfl
  | test | accept | close | receive | terminate | drained => cases member

/-- A request of the loop that changes what the configuration file holds. -/
def LoopOverwrites (crates : Crates Salt Ip) (st : Loop) (event : LoopEvent Salt Ip) : Prop :=
  ∃ event' ∈ shadow crates st event, Overwrites crates st.site event'

theorem shadow_single (st : Loop) (event : LoopEvent Salt Ip) :
    shadow crates st event = [] ∨ ∃ event', shadow crates st event = [event'] := by
  cases event with
  | build bound =>
    dsimp only [shadow]
    split
    · exact .inr ⟨_, rfl⟩
    · exact .inl rfl
  | request i r =>
    dsimp only [shadow]
    split
    · exact .inl rfl
    · exact .inr ⟨_, rfl⟩
  | save i outcome => exact .inr ⟨_, rfl⟩
  | test | accept | close | receive | terminate | drained => exact .inl rfl

theorem all_fit_run {map : ConfigMap} {events : List (LoopEvent Salt Ip)} {st : Loop}
    (loads : load crates disk = .ok (config, map))
    (orderly : ∀ event ∈ events, OrderlyLoop crates config event)
    (spared : ¬ Occurred (loopStep crates) (.start disk) events fun _ => LoopOverwrites crates)
    (ran : run (loopStep crates) (.start disk) events = some st) : AllFit crates config st.site := by
  refine run_rule (I := fun events st => (∀ event ∈ events, OrderlyLoop crates config event) →
    ¬ Occurred (loopStep crates) (.start disk) events (fun _ => LoopOverwrites crates) →
    AllFit crates config st.site) (fun _ _ => loads_fit loads) ?_ ran orderly spared
  intro past event before after earlier ih taken orderly spared
  rw [occurred_concat earlier, not_or] at spared
  have fit := ih (fun event member => orderly event (List.mem_append_left _ member)) spared.1
  have now := orderly event (List.mem_append_right _ List.mem_cons_self)
  have followed := shadow_followed before event after taken
  rcases shadow_single before event with none | ⟨event', one⟩
  · rw [none] at followed
    exact Option.some.inj followed ▸ fit
  · have inside : event' ∈ shadow crates before event := one ▸ List.mem_singleton.mpr rfl
    rw [one] at followed
    obtain ⟨next, step, same⟩ := Option.bind_eq_some_iff.mp followed
    cases same
    exact all_fit_step fit (shadow_orderly now before inside)
      (fun overwrites => spared.2 ⟨event', inside, overwrites⟩) step

/-- The server never goes down on a reload. In whatever order requests of administrators read and save the
    configuration, every build finds a file that loads, as long as the apps that come in requests can be
    served, no save breaks off, and no request to a dav overwrites the file. -/
theorem builds_never_fail {map : ConfigMap} {events : List (LoopEvent Salt Ip)} {st : Loop}
    (loads : load crates disk = .ok (config, map))
    (orderly : ∀ event ∈ events, OrderlyLoop crates config event)
    (spared : ¬ Occurred (loopStep crates) (.start disk) events fun _ => LoopOverwrites crates)
    (ran : run (loopStep crates) (.start disk) events = some st) :
    st.phase ≠ .ended false ∧ ∃ now map', load crates st.site.disk = .ok (now, map') := by
  refine ⟨?_, all_fit_loads (all_fit_run loads orderly spared ran)⟩
  refine run_rule (I := fun events st => (∀ event ∈ events, OrderlyLoop crates config event) →
    ¬ Occurred (loopStep crates) (.start disk) events (fun _ => LoopOverwrites crates) →
    st.phase ≠ .ended false) (fun _ _ bad => by cases bad) ?_ ran orderly spared
  intro past event before after earlier ih taken orderly spared
  rw [occurred_concat earlier, not_or] at spared
  have now := orderly event (List.mem_append_right _ List.mem_cons_self)
  have past_orderly : ∀ event ∈ past, OrderlyLoop crates config event :=
    fun event member => orderly event (List.mem_append_left _ member)
  have unfailed := ih past_orderly spared.1
  cases loop_step_iff.mp taken with
  | test phase =>
    intro bad
    dsimp only at bad
    split at bad <;> cases bad
  | failed phase bound fails =>
    rcases fails with unbound | fails
    · exact absurd (congrArg LoopEvent.build unbound) now.bound
    · obtain ⟨_, _, loaded⟩ := all_fit_loads (all_fit_run loads past_orderly spared.1 earlier)
      simp only [step, loaded] at fails
      cases fails
  | built | receive | terminate | drained =>
    intro bad
    cases bad
  | accept | request | close | save => exact unfailed

end Builds

section Samples

def reloadRequest : SiteRequest Unit Unit :=
  ⟨"GET", ⟨none, none, some "/reload"⟩, [("host", utf8 "vestibule.io")], [], (), none, none, (),
    VestibuleWebdav.sampleOutside, 0⟩

def reloadRun : List (LoopEvent Unit Unit) :=
  [.test, .build true, .accept, .request 0 reloadRequest, .receive, .close 0, .drained, .test, .build true,
    .accept]

def reloaded : Loop :=
  ⟨⟨linkedDisk, [], [filesServices, filesServices], []⟩, .serving, true, 1, 0, [1]⟩

theorem loop_built {st : Loop} (phase : st.phase = .building)
    (stored : readConfig st.site.disk = some filesFile) :
    loopStep sampleCrates st (.build true : LoopEvent Unit Unit) =
      some ⟨{ st.site with routers := st.site.routers ++ [filesServices] }, .serving, st.continueMain,
        st.site.routers.length, 0, []⟩ := by
  simp only [loopStep, phase, step, files_loaded stored, ↓reduceIte]

def firstBuilt : Loop := ⟨⟨linkedDisk, [], [filesServices], []⟩, .serving, true, 0, 0, []⟩

theorem first_ran : run (loopStep sampleCrates) (.start linkedDisk)
    ([.test] ++ [.build true] : List (LoopEvent Unit Unit)) = some firstBuilt :=
  run_concat.mpr ⟨⟨.start linkedDisk, .building, true, 0, 0, []⟩, rfl, loop_built rfl linked_stored⟩

def rebuilding : Loop := ⟨⟨linkedDisk, [], [filesServices], []⟩, .building, true, 0, 0, []⟩

theorem served_ran : run (loopStep sampleCrates) firstBuilt
    ([.accept, .request 0 reloadRequest, .receive, .close 0, .drained, .test] : List (LoopEvent Unit Unit)) =
      some rebuilding := by rfl

theorem reload_ran : run (loopStep sampleCrates) (.start linkedDisk) reloadRun = some reloaded := by
  have split : reloadRun = ([.test] ++ [.build true]) ++ ([.accept, .request 0 reloadRequest, .receive,
      .close 0, .drained, .test] ++ (.build true :: [.accept])) := rfl
  rw [split, run_append, first_ran, Option.bind_some, run_append, served_ran, Option.bind_some, run,
    loop_built rfl linked_stored]
  rfl

theorem reload_spared : ¬ Occurred (loopStep sampleCrates) (.start linkedDisk) reloadRun
    fun _ => LoopOverwrites sampleCrates := by
  rintro ⟨past, event, later, st, whole, _, event', inside, overwrites⟩
  have member : event ∈ reloadRun := whole ▸ List.mem_append_right past List.mem_cons_self
  cases event with
  | request i r =>
    have same : r = reloadRequest := by
      simp only [reloadRun, List.mem_cons, List.not_mem_nil, or_false, reduceCtorEq, false_or,
        LoopEvent.request.injEq] at member
      exact member.2
    simp only [shadow] at inside
    split at inside
    · cases inside
    · cases List.mem_singleton.mp inside
      exact reading_spares (by rw [same]; decide) overwrites
  | build bound =>
    simp only [shadow, List.mem_ite_nil_right, List.mem_singleton] at inside
    obtain ⟨_, _, _, _, other, _⟩ := overwrites
    cases inside.2.symm.trans other
  | save i outcome =>
    obtain ⟨_, _, _, _, other, _⟩ := overwrites
    cases (List.mem_singleton.mp inside).symm.trans other
  | test | accept | close | receive | terminate | drained => cases inside

end Samples

theorem reloaded_in_force : InForce sampleCrates (.start linkedDisk) reloadRun reloaded :=
  (reload_takes_effect reload_ran rfl).1

/-- With a connection open the signal comes, and the process can still end. -/
theorem terminated_ends : ∃ more st', run (loopStep sampleCrates)
      ⟨⟨linkedDisk, [], [filesServices], []⟩, .draining, false, 0, 0, [0]⟩ more = some st' ∧
        st'.phase = .ended true := by
  have ran : run (loopStep sampleCrates) (.start linkedDisk)
      ([.test] ++ [.build true] ++ [.accept, .terminate] : List (LoopEvent Unit Unit)) =
        some ⟨⟨linkedDisk, [], [filesServices], []⟩, .draining, false, 0, 0, [0]⟩ := by
    rw [run_append, first_ran]
    rfl
  obtain ⟨more, st', ends, phase, _⟩ := (shutdown_completes ran rfl).2
  exact ⟨more, st', ends, phase⟩

theorem reload_not_failed : reloaded.phase ≠ .ended false ∧
    ∃ now map, load sampleCrates linkedDisk = .ok (now, map) := by
  have whole : ∀ event ∈ reloadRun, (∀ i count, event ≠ .save i (.brokeOff count)) ∧
      event ≠ .build false := by simp [reloadRun]
  refine builds_never_fail (files_loaded linked_stored) (fun event member => ⟨?_, (whole event member).1,
    (whole event member).2⟩) reload_spared reload_ran
  intro _ r payload _ asked
  cases asked

end VestibulePlain
