import Vestibule.SeparateStores
import Vestibule.SiteAccess

/-!
The davs of a site as stores: over all its runs each directory holds what those who are entitled to a
dav there asked for, and nothing else that happens at the site shows in it.
-/
namespace VestibuleSite
open VestibuleRust FileTree FileCalls PlainCalls VestibulePaths VestibulePasswords VestibuleAdmin VestibuleServices
  VestibuleStreamer VestibuleCopyMove VestibuleStorage DocumentStore SealedChunks StepRuns
open VestibuleSessions (Signed)
open VestibuleWebdav (Addresses Apart Asks Answers Represents Serves only sampleOutside sample_query
  sample_unconditional topTarget)

section Runs
variable {ι Salt Ip : Type} {aead : StreamAead} {key : ι → Option Key} {top : ι → List Name}
  {crates : Crates Salt Ip} {disk : Disk} {s : ι → Store Name Bytes}

/-- The path of the configuration leads to none of the directories. -/
def ConfigApart (top : ι → List Name) (w : Disk) : Prop :=
  ∀ place i, w.lookup true configFile = .ok place → ¬ top i <+: place

/-- What an event asks of the directories of davs: something of one of them, when it is a request that is
    entitled to a dav there, and else nothing. A request that is entitled to write is of the first kind, and
    saves leave the directories alone. -/
inductive Poses (aead : StreamAead) (key : ι → Option Key) (top : ι → List Name)
    (crates : Crates Salt Ip) (start : State) (past : List (Event Salt Ip))
    (st : State) : Event Salt Ip → Option (ι × Action Name Bytes) → Prop where
  | asked {router : Nat} {r : SiteRequest Salt Ip} {heard : Bool} {dav : Dav} {i : ι}
      {action : Action Name Bytes} (meets : Meets crates st router r (.dav dav))
      (entitled : Entitled crates start past router r.cookie (.dav dav))
      (serves : Serves key top (shareOf dav) i)
      (asks : Asks aead (shareOf dav) (top i) r.out r.asked action) :
      Poses aead key top crates start past st (.request router r heard) (some (i, action))
  | nothing {event : Event Salt Ip} (harmless : ∀ router r heard dav, event = .request router r heard →
      Meets crates st router r (.dav dav) → Entitled crates start past router r.cookie (.dav dav) →
      dav.writable = false ∨ (methodOf r.method).writes = false)
      (apart : ∀ n outcome, event = .save n outcome → ConfigApart top st.disk) :
      Poses aead key top crates start past st event none

def AllPosed (aead : StreamAead) (key : ι → Option Key) (top : ι → List Name)
    (crates : Crates Salt Ip) (start : State)
    (steps : List (Event Salt Ip × Option (ι × Action Name Bytes))) : Prop :=
  ∀ past one later st, steps = past ++ one :: later →
    run (step crates) start (past.map Prod.fst) = some st →
    Poses aead key top crates start (past.map Prod.fst) st one.1 one.2

theorem all_posed_front {start : State}
    {past later : List (Event Salt Ip × Option (ι × Action Name Bytes))}
    (posed : AllPosed aead key top crates start (past ++ later)) :
    AllPosed aead key top crates start past := by
  intro first one rest st whole ran
  exact posed first one (rest ++ later) st (by simp [whole]) ran

theorem all_posed_concat {start : State}
    {past : List (Event Salt Ip × Option (ι × Action Name Bytes))}
    {last : Event Salt Ip × Option (ι × Action Name Bytes)} :
    AllPosed aead key top crates start (past ++ [last]) ↔
      AllPosed aead key top crates start past ∧
        ∀ st, run (step crates) start (past.map Prod.fst) = some st →
          Poses aead key top crates start (past.map Prod.fst) st last.1 last.2 := by
  constructor
  · intro posed
    exact ⟨all_posed_front posed, fun st ran => posed past last [] st rfl ran⟩
  · rintro ⟨posed, now⟩ first one later st whole ran
    rcases List.eq_nil_or_concat later with bare | ⟨rest, final, same⟩
    · subst bare
      obtain ⟨rfl, rfl⟩ := List.append_singleton_inj.mp whole
      exact now st ran
    · subst same
      rw [List.concat_eq_append, ← List.cons_append, ← List.append_assoc] at whole
      obtain ⟨rfl, _⟩ := List.append_singleton_inj.mp whole
      exact posed first one rest st rfl ran

theorem represents_beside {key : Option Key} {d p : List Name} {n : Name} {w w' : Disk} {content : Bytes}
    {s : Store Name Bytes} (represents : Represents aead key d w s)
    (puts : Puts w w' (p ++ [n]) (.file content)) (no_dir : w.tree.isDir (p ++ [n]) = false)
    (outside : ¬ d <+: p ++ [n]) :
    Represents aead key d w' s := by
  constructor
  · rw [is_dir_iff, puts.get, if_neg]
    · exact is_dir_iff.mp represents.above
    · intro same
      have dir := represents.above
      rw [same, no_dir] at dir
      cases dir
  · intro names
    rw [puts.get, if_neg]
    · exact represents.same names
    · intro same
      exact outside (same ▸ List.prefix_append d names)

theorem stores_still {st st' : State} {event : Event Salt Ip} (taken : step crates st event = some st')
    (represents : ∀ i, Represents aead (key i) (top i) st.disk (s i))
    (harmless : ∀ router r heard dav, event = .request router r heard →
      Meets crates st router r (.dav dav) →
      checkAuthorization (.dav dav) (requestUser crates st router r).toOption = none →
      dav.writable = false ∨ (methodOf r.method).writes = false)
    (apart : ∀ n outcome, event = .save n outcome → ConfigApart top st.disk) :
    ∀ i, Represents aead (key i) (top i) st'.disk (s i) := by
  rcases step_cases taken with ⟨_, _, _, _, same⟩ | ⟨router, r, heard, answer, same, answered⟩ |
    ⟨n, outcome, saving, same, _, left⟩
  · exact same ▸ represents
  · rcases respond_leaves answered with leaves | ⟨dav, meets, passes, disk', outcome, served, kept, _⟩
    · cases leaves <;> exact represents
    · obtain ⟨outcome', untouched⟩ := @VestibuleWebdav.handle_keeps r.out (shareOf dav) r.fuel st.disk
        r.asked (harmless router r heard dav same meets passes)
      rw [served] at untouched
      cases untouched
      rw [kept]
      exact represents
  · rw [left]
    rcases @save_cases st.disk crates.yaml outcome saving.config with kept | ⟨p, m, opens, puts⟩
    · dsimp only
      rw [kept]
      exact represents
    · intro i
      exact represents_beside (represents i) puts opens.fits.2.2 (apart n outcome same _ i opens.place)

def storeAfter [DecidableEq ι] (s : ι → Store Name Bytes)
    (steps : List (Event Salt Ip × Option (ι × Action Name Bytes))) (i : ι) : Store Name Bytes :=
  ((s i).performAll (only i (steps.filterMap Prod.snd))).1

section Stores
variable [DecidableEq ι]

theorem after_append (past later : List (Event Salt Ip × Option (ι × Action Name Bytes))) (i : ι) :
    storeAfter s (past ++ later) i = storeAfter (storeAfter s past) later i := by
  simp only [storeAfter, List.filterMap_append, VestibuleWebdav.only, perform_all_append]

theorem after_nothing (past : List (Event Salt Ip × Option (ι × Action Name Bytes)))
    (event : Event Salt Ip) (i : ι) : storeAfter s (past ++ [(event, none)]) i = storeAfter s past i :=
  after_append past _ i

theorem after_asked (past : List (Event Salt Ip × Option (ι × Action Name Bytes)))
    (event : Event Salt Ip) (j : ι) (action : Action Name Bytes) (i : ι) :
    storeAfter s (past ++ [(event, some (j, action))]) i =
      Function.update (storeAfter s past) j ((storeAfter s past j).perform action).1 i := by
  rw [after_append]
  by_cases same : i = j
  · subst same
    simp [storeAfter, only, Store.performAll]
  · simp [storeAfter, only, Store.performAll, Function.update_of_ne same, Ne.symm same]

end Stores

variable [DecidableEq ι]

theorem entitled_answered (undoes : Undoes aead) (apart : Apart top)
    (roundTrips : RoundTrips crates.toJson crates.fromJson) {events : List (Event Salt Ip)}
    {st : State} (ran : run (step crates) (.start disk) events = some st)
    (represents : ∀ i, Represents aead (key i) (top i) st.disk (s i)) {router : Nat}
    {r : SiteRequest Salt Ip} {dav : Dav} {i : ι} {action : Action Name Bytes}
    (meets : Meets crates st router r (.dav dav))
    (entitled : Entitled crates (.start disk) events router r.cookie (.dav dav))
    (serves : Serves key top (shareOf dav) i)
    (asks : Asks aead (shareOf dav) (top i) r.out r.asked action) (heard : Bool) : ∃ disk' outcome,
      respond crates st router r heard = some ({ st with disk := disk' }, callAnswer outcome) ∧
        (∀ j, Represents aead (key j) (top j) disk'
          (Function.update s i ((s i).perform action).1 j)) ∧
        Answers r.out ((s i).perform action).2 outcome := by
  obtain ⟨disk', outcome, handled, represents', answers⟩ :=
    VestibuleWebdav.served_answers undoes apart represents serves asks r.fuel
  refine ⟨disk', outcome, ?_, represents', answers⟩
  rw [respond_serves meets ((entitled_iff roundTrips ran).mpr entitled)]
  simp only [serve, handled, Option.map_some]

theorem stores_kept (undoes : Undoes aead) (apart : Apart top)
    (roundTrips : RoundTrips crates.toJson crates.fromJson)
    (represents : ∀ i, Represents aead (key i) (top i) disk (s i))
    {steps : List (Event Salt Ip × Option (ι × Action Name Bytes))}
    (posed : AllPosed aead key top crates (.start disk) steps) {st : State}
    (ran : run (step crates) (.start disk) (steps.map Prod.fst) = some st) :
    ∀ i, Represents aead (key i) (top i) st.disk (storeAfter s steps i) := by
  induction steps using List.reverseRecOn generalizing st with
  | nil =>
    cases ran
    exact represents
  | append_singleton past last ih =>
    obtain ⟨event, asked⟩ := last
    obtain ⟨posed, now⟩ := all_posed_concat.mp posed
    rw [List.map_append] at ran
    obtain ⟨before, earlier, taken⟩ := run_concat.mp ran
    have kept := ih posed earlier
    have poses := now before earlier
    cases poses with
    | asked meets entitled serves asks =>
      rename_i router r heard dav i action
      obtain ⟨disk', outcome, answered, represents', _⟩ :=
        entitled_answered undoes apart roundTrips earlier kept meets entitled serves asks heard
      simp only [step, answered, Option.map_some, Option.some.injEq] at taken
      subst taken
      intro j
      rw [after_asked]
      exact represents' j
    | nothing harmless beside =>
      have still := stores_still taken kept (fun router r heard dav request meets passes =>
        harmless router r heard dav request meets ((entitled_iff roundTrips earlier).mp passes)) beside
      intro i
      rw [after_nothing]
      exact still i

theorem answer_ok {outcome : VestibuleWebdav.Outcome} {response : VestibuleWebdav.Response}
    (same : callAnswer outcome = .dav response) (other : response.status ≠ 500) :
    outcome = .ok response := by
  cases outcome with
  | ok response' =>
    cases same
    rfl
  | error fault =>
    cases fault with
    | failed =>
      cases same
      exact absurd rfl other
    | panicked | unwrapped => cases same

end Runs

section Samples

def getRequest (cookie : Option Signed) : SiteRequest Unit Unit :=
  ⟨"GET", ⟨none, none, some "/g"⟩, [("host", utf8 "files.vestibule.io")], [], (), cookie, none, (),
    sampleOutside, 0⟩

def onlyKey (_ : Unit) : Option Key := none

def onlyTop (_ : Unit) : List Name := [[100]]

theorem only_apart : Apart onlyTop := fun _ _ other => absurd rfl other

theorem files_serves : Serves onlyKey onlyTop (shareOf files) () :=
  ⟨⟨⟨false, by decide⟩, by simp [onlyTop], by unfold Legal; decide, by decide⟩, rfl⟩

def documentSteps : List (Event Unit Unit × Option (Unit × Action Name Bytes)) :=
  [(.build, none), (.request 0 loginRequest false, none)] ++
    (.request 0 (putRequest (some bobsCookie)) false, some ((), .put (topTarget [103]) [7])) ::
      [(.request 0 (putRequest none) false, none)]

theorem files_addressed : Addresses (shareOf files) [[100]] (utf8 "/g") (utf8 "/d/g") (topTarget [103]) :=
  ⟨by decide, by decide, by unfold Legal; decide, by decide⟩

theorem put_asked : Asks sampleAead (shareOf files) (onlyTop ()) sampleOutside
    (putRequest (some bobsCookie)).asked (.put (topTarget [103]) [7]) :=
  .put files_addressed rfl rfl rfl rfl (by decide)

theorem get_asked (cookie : Option Signed) : Asks sampleAead (shareOf files) (onlyTop ()) sampleOutside
    (getRequest cookie).asked (.read (topTarget [103])) :=
  .read files_addressed rfl sample_query rfl (sample_unconditional _ _ rfl)

theorem only_files_met {disk : Disk} {cookie : Option Signed} {dav : Dav}
    (meets : Meets sampleCrates (afterLogin disk) 0 (putRequest cookie) (.dav dav)) : dav = files := by
  obtain ⟨map, built, met⟩ := meets
  obtain ⟨map', built', met'⟩ := files_met disk cookie
  rw [built] at built'
  cases built'
  rw [met] at met'
  cases met'
  rfl

theorem directory_represented {key : Option Key} :
    Represents sampleAead key [[100]] directoryDisk VestibuleWebdav.emptyStore := by
  have puts : Puts VestibuleWebdav.emptyDisk directoryDisk ([] ++ [configName]) (.file filesFile) :=
    ⟨rfl, fun _ => rfl⟩
  exact represents_beside VestibuleWebdav.empty_represented puts (by decide) (by decide)

theorem put_stored : ∃ disk' response,
    respond sampleCrates (afterLogin directoryDisk) 0 (putRequest (some bobsCookie)) false =
      some (afterLogin disk', .dav response) ∧ response.status = 201 := by
  obtain ⟨disk', outcome, answered, _, answers⟩ := entitled_answered sample_undoes only_apart
    sample_round_trips (files_ran directory_stored) (fun _ => directory_represented)
    (files_met directoryDisk (some bobsCookie)) (bob_entitled (files_ran directory_stored)) files_serves
    put_asked false
  have created : outcome = .ok ⟨201, [], .empty⟩ := answers
  subst created
  exact ⟨disk', _, answered, rfl⟩

theorem put_ran {disk' : Disk} {response : VestibuleWebdav.Response}
    (stored : respond sampleCrates (afterLogin directoryDisk) 0 (putRequest (some bobsCookie)) false =
      some (afterLogin disk', .dav response)) :
    run (step sampleCrates) (.start directoryDisk)
      (filesRun ++ [.request 0 (putRequest (some bobsCookie)) false]) = some (afterLogin disk') := by
  refine run_concat.mpr ⟨_, files_ran directory_stored, ?_⟩
  simp only [step, stored, Option.map_some]

theorem stranger_ran (disk : Disk) : run (step sampleCrates) (afterLogin disk)
    [.request 0 (putRequest none) false] = some (afterLogin disk) := by
  have refused : respond sampleCrates (afterLogin disk) 0 (putRequest none) false =
      some (afterLogin disk, forbidden (.dav files)) := by
    refine respond_forbids (files_met disk none) ?_
    unfold requestUser VestibuleSessions.userFromRequest
    exact Option.some_ne_none 403
  simp only [run, step, refused, Option.map_some, Option.bind_some]

theorem documents_ran {disk' : Disk} {response : VestibuleWebdav.Response}
    (stored : respond sampleCrates (afterLogin directoryDisk) 0 (putRequest (some bobsCookie)) false =
      some (afterLogin disk', .dav response)) :
    run (step sampleCrates) (.start directoryDisk) (documentSteps.map Prod.fst) =
      some (afterLogin disk') := by
  have split : documentSteps.map Prod.fst = (filesRun ++
      [.request 0 (putRequest (some bobsCookie)) false]) ++ [.request 0 (putRequest none) false] := rfl
  rw [split, run_append, put_ran stored]
  exact stranger_ran disk'

theorem document_steps_posed : AllPosed sampleAead onlyKey onlyTop sampleCrates
    (.start directoryDisk) documentSteps := by
  obtain ⟨disk', response, stored, _⟩ := put_stored
  have whole : documentSteps = ((([] ++ [(.build, none)]) ++ [(.request 0 loginRequest false, none)]) ++
      [(.request 0 (putRequest (some bobsCookie)) false, some ((), .put (topTarget [103]) [7]))]) ++
        [(.request 0 (putRequest none) false, none)] := rfl
  rw [whole]
  simp only [all_posed_concat]
  refine ⟨⟨⟨⟨?_, fun st ran => .nothing ?_ ?_⟩, fun st ran => .nothing ?_ ?_⟩, fun st ran => ?_⟩,
    fun st ran => .nothing ?_ ?_⟩
  · intro past one later st whole
    simp at whole
  · rintro _ _ _ _ ⟨⟩
  · rintro _ _ ⟨⟩
  · rintro _ _ _ dav ⟨⟩ ⟨map, built, met⟩ _
    have built' : run (step sampleCrates) (.start directoryDisk) ([] ++ [(.build : Event Unit Unit)]) =
        some ⟨directoryDisk, [], [filesServices], []⟩ :=
      run_concat.mpr ⟨_, rfl, files_built directory_stored⟩
    cases ran.symm.trans built'
    cases built
    have unmet : hostTypeFromRequest sampleCrates.http.toHttp filesServices loginRequest.headers =
        .ok (.error 404) := rfl
    cases unmet.symm.trans met
  · rintro _ _ ⟨⟩
  · cases ran.symm.trans (files_ran directory_stored)
    exact .asked (files_met directoryDisk (some bobsCookie)) (bob_entitled (files_ran directory_stored))
      files_serves put_asked
  · cases ran.symm.trans (put_ran stored)
    rintro _ _ _ dav ⟨⟩ meets entitled
    rw [only_files_met meets] at entitled
    exact absurd entitled stranger_not_entitled
  · rintro _ _ ⟨⟩

end Samples

end VestibuleSite
