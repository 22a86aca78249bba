import SagaMachine.Proofs.Inversion

/-!
# Steps that belong to others

An instruction of another middleware leaves a middleware alone, and so does most of what
user code does; the rest intervenes in one of the ways of `Intervenes`. Together with the
instructions of the middleware itself (`World.Enacts.exec`) this covers every step of the
machine.

Main statement: `Config.moves_of_step`.
-/

namespace SagaMachine

/-- An instruction that neither works on the engine of a middleware nor drops its bodies. -/
def Instr.Spares (i : MiddlewareId) (x : Instr) : Prop := x.owner? ≠ some i ∧ x.drops? i = none

theorem Instr.spares_of_owner {i j : MiddlewareId} (h : i ≠ j) {x : Instr}
    (hx : x.owner? = some j) : x.Spares i := by
  refine ⟨?_, ?_⟩
  · rw [hx]
    rintro ⟨⟩
    exact h rfl
  · cases x with
    | dropBody => cases hx
    | _ => rfl

theorem framesOf_spares {i : MiddlewareId} {xs : List Instr} (h : ∀ x ∈ xs, x.Spares i) :
    framesOf i xs = [] := by
  refine List.filter_eq_nil_iff.2 fun x hx => ?_
  simpa using (h x hx).1

theorem dropsOf_spares {i : MiddlewareId} {xs : List Instr} (h : ∀ x ∈ xs, x.Spares i) :
    dropsOf i xs = [] := List.filterMap_eq_nil_iff.2 fun x hx => (h x hx).2

namespace World

variable {w w' w'' : World} {i j : MiddlewareId}

/-- What an instruction comes to does not concern a middleware. -/
structure Spares (i : MiddlewareId) (w : World) (c : Config) : Prop where
  untouched : Untouched i w c.world
  todo : ∀ x ∈ c.todo, x.Spares i

namespace Spares

theorem nil (h : Untouched i w w') : w.Spares i ⟨[], w'⟩ := ⟨h, fun x hx => by cases hx⟩

theorem one (h : Untouched i w w') {x : Instr} (hx : x.Spares i) : w.Spares i ⟨[x], w'⟩ := by
  refine ⟨h, fun y hy => ?_⟩
  rw [List.mem_singleton.1 hy]
  exact hx

theorem two (h : Untouched i w w') {x y : Instr} (hx : x.Spares i) (hy : y.Spares i) :
    w.Spares i ⟨[x, y], w'⟩ := by
  refine ⟨h, fun z hz => ?_⟩
  rcases List.mem_cons.1 hz with rfl | hz
  · exact hx
  · rw [List.mem_singleton.1 hz]
    exact hy

theorem followedBy {c : Config} (h : w.Spares i c) {after : List Instr}
    (ha : ∀ x ∈ after, x.Spares i) : w.Spares i (c.followedBy after) := by
  refine ⟨h.untouched, fun x hx => ?_⟩
  rcases List.mem_append.1 hx with hx | hx
  · exact h.todo x hx
  · exact ha x hx

/-- An instruction of user code spares every middleware. -/
theorem neutral {x : Instr} (h : x.owner? = none) (hd : x.drops? i = none) : x.Spares i :=
  ⟨by rw [h]; rintro ⟨⟩, hd⟩

section

variable (hij : i ≠ j)
include hij

theorem enterDriver (h : Untouched i w w') {work : List Instr} (hw : ∀ x ∈ work, x.Spares i) :
    w.Spares i (w'.enterDriver j work) := by
  unfold World.enterDriver
  split
  · exact ⟨h, hw⟩
  · refine ⟨h.trans (untouched_setEngine hij fun e => { e with driving := true }), ?_⟩
    intro x hx
    rcases List.mem_append.1 hx with hx | hx
    · exact hw x hx
    · rw [List.mem_singleton.1 hx]
      exact Instr.spares_of_owner hij rfl

/-! ### The driver -/

theorem beginTurn (h : Untouched i w w') (t : TaskId) (expected : Option EffectId)
    (signal : Option Signal) : w.Spares i (w'.beginTurn j t expected signal) := by
  unfold World.beginTurn
  split
  · exact nil h
  · split
    · exact nil h
    · split
      · exact nil h
      · have h1 := (h.trans (untouched_setTask hij t
          fun n => { n with body := none, status := .running })).trans
          (untouched_setEngine hij fun e => { e with current := some t })
        simp only
        split <;> exact one h1 (Instr.spares_of_owner hij rfl)

theorem execPerform (job : Job) : w.Spares i (w.execPerform j job) := by
  cases job with
  | reaction r =>
    cases r with
    | start t => exact beginTurn hij (.refl i w) t none none
    | resume t signal => exact beginTurn hij (.refl i w) t none (some signal)
    | settle x signal =>
      have h1 : Untouched i w (w.settleWait j x signal).2 := untouched_walk hij _ _
      simp only [World.execPerform]
      split
      · exact nil h1
      · exact beginTurn hij h1 _ _ _
  | errand a =>
    have h1 : Untouched i w (w.record j (.fetched a)) := untouched_record hij _
    cases a with
    | dispatch a reply => exact one h1 (Instr.spares_of_owner hij rfl)
    | put c v reply =>
      simp only [World.execPerform, World.putForEffect]
      split
      · exact nil (h1.trans (untouched_schedule hij _))
      · rename_i channel _
        have h2 := h1.trans (untouched_putChannel c channel v)
        split
        · exact nil (h2.trans (untouched_schedule hij _))
        · exact two h2 (neutral rfl rfl) (Instr.spares_of_owner hij rfl)
        · exact nil (h2.trans (untouched_schedule hij _))
    | finish => exact nil (h1.trans (untouched_endBus hij))

theorem execDrain : w.Spares i (w.execDrain j) := by
  unfold World.execDrain
  split
  · exact nil (untouched_setEngine hij _)
  · exact two (untouched_setEngine hij _) (Instr.spares_of_owner hij rfl)
      (Instr.spares_of_owner hij rfl)

theorem execEmit (a : Action) (sender : Sender) : w.Spares i (w.execEmit j a sender) := by
  unfold World.execEmit
  split
  · exact nil (.refl i w)
  · have h1 : Untouched i w (w.record j (.dispatched a)) := untouched_record hij _
    simp only
    split
    · exact one h1 (Instr.spares_of_owner hij rfl)
    · exact two (h1.trans (untouched_enter (e := .host j _ a) trivial)) (neutral rfl rfl)
        (Instr.spares_of_owner hij rfl)

theorem execForwarded (a : Action) (sender : Sender) :
    w.Spares i (w.execForwarded j a sender) := by
  have hfinish : ∀ w' result, Untouched i w w' →
      w.Spares i (w'.finishEmit j a sender result) := by
    intro w' result h
    cases sender with
    | effect x => exact nil (h.trans (untouched_schedule hij _))
    | caller site => exact two h (Instr.spares_of_owner hij rfl) (neutral rfl rfl)
    | nobody =>
      cases result with
      | ok u => exact nil h
      | error f => exact nil (h.trans (untouched_record hij _))
  unfold World.execForwarded
  split
  · exact nil (.refl i w)
  · split
    · exact hfinish _ _ (.refl i w)
    · exact hfinish _ _ ((untouched_reduceHost a).trans (untouched_broadcast hij a))

/-! ### Polls and the start of effects -/

variable {t : TaskId} {b : Body} {nests : List Nest}

theorem execPolled (step : Step Effect) : w.Spares i (w.execPolled ⟨j, t⟩ b step) := by
  unfold World.execPolled
  split
  · exact one (.refl i w) (Instr.spares_of_owner hij rfl)
  · cases step <;> exact one (.refl i w) (Instr.spares_of_owner hij rfl)

theorem goesOn {c : Config} (h : Enacts.GoesOn ⟨j, t⟩ w' c) (hu : Untouched i w w') :
    w.Spares i c := by
  obtain ⟨g, hg, htodo⟩ := h.todo
  have hs : g.Spares i := by
    refine Instr.spares_of_owner hij ?_
    cases g with
    | advance turn s m => cases hg; rfl
    | polled turn b step => cases hg; rfl
    | _ => exact hg.elim
  refine ⟨hu.trans (h.untouched i), fun x hx => ?_⟩
  rcases htodo with htodo | ⟨y, htodo, hy, hd⟩
  · rw [htodo] at hx
    rw [List.mem_singleton.1 hx]
    exact hs
  · rw [htodo] at hx
    rcases List.mem_cons.1 hx with rfl | hx
    · exact neutral hy (hd i)
    · rw [List.mem_singleton.1 hx]
      exact hs

theorem immediate (h : Untouched i w w') (x : EffectId) (signal : Signal) :
    w.Spares i (w'.immediate ⟨j, t⟩ b nests x signal) :=
  one (h.trans (untouched_record hij _)) (Instr.spares_of_owner hij rfl)

theorem suspend (h : Untouched i w w') (x : EffectId) (kind : WaitKind) :
    w.Spares i (w'.suspend ⟨j, t⟩ b nests x kind) :=
  one (h.trans (untouched_insertWait hij x _)) (Instr.spares_of_owner hij rfl)

theorem awaitDeferred (h : Untouched i w w') (x : EffectId) (d : DeferredId) :
    w.Spares i (w'.awaitDeferred ⟨j, t⟩ b nests x d) := by
  have h1 : Untouched i w (w'.suspend ⟨j, t⟩ b nests x (.call d)).world :=
    h.trans (untouched_insertWait hij x _)
  have hx : ∀ y ∈ [Instr.begun ⟨j, t⟩ b nests (.pending x)], y.Spares i := by
    intro y hy
    rw [List.mem_singleton.1 hy]
    exact Instr.spares_of_owner hij rfl
  unfold World.awaitDeferred
  simp only
  split
  · exact ⟨h1, hx⟩
  · rename_i deferred _
    split
    · exact ⟨h1.trans (.of_eq rfl rfl), hx⟩
    · have h2 : Untouched i w
          { (w'.suspend ⟨j, t⟩ b nests x (.call d)).world with
            deferreds := (w'.suspend ⟨j, t⟩ b nests x (.call d)).world.deferreds.insert d
              (deferred.subscribe ⟨j, x⟩).2 } := h1.trans (.of_eq rfl rfl)
      exact ⟨h2.trans (untouched_schedule hij _), hx⟩

theorem execTrigger (e : Effect) : w.Spares i (w.execTrigger ⟨j, t⟩ b nests e) := by
  unfold World.execTrigger
  split
  · exact one (.refl i w) (Instr.spares_of_owner hij rfl)
  · have h : Untouched i w ((w.setEngine j fun e =>
        { e with nextEffect := (w.engine j).nextEffect + 1 }).record j
          (.triggered t (w.engine j).nextEffect (Nest.link nests).parent? e)) :=
      (untouched_setEngine hij _).trans (untouched_record hij _)
    have hrace : ∀ w' x keys members, Untouched i w w' →
        w.Spares i (w'.startRace ⟨j, t⟩ b nests x keys members) := by
      intro w' x keys members h
      cases members with
      | nil => exact immediate hij h x _
      | cons e es =>
        exact one (h.trans (untouched_insertWait hij x _)) (Instr.spares_of_owner hij rfl)
    cases e with
    | take source p =>
      simp only [World.startTake]
      cases source with
      | bus =>
        simp only
        split
        · exact immediate hij (h.trans (untouched_setEngine hij _)) _ _
        · exact suspend hij (h.trans (untouched_setEngine hij _)) _ _
      | channel c =>
        simp only
        split
        · exact immediate hij h _ _
        · split
          · exact immediate hij (h.trans (untouched_takeChannel ..)) _ _
          · exact suspend hij (h.trans (untouched_takeChannel ..)) _ _
    | put target =>
      refine one ?_ (Instr.spares_of_owner hij rfl)
      exact (h.trans (untouched_insertWait hij _ _)).trans (untouched_queue hij _)
    | call name r =>
      cases r with
      | sleep ms => exact awaitDeferred hij (h.trans (untouched_addTimer _ _)) _ _
      | scripted c env =>
        have hu : ∀ w', Untouched i w' (c.label.elim w' fun name => w'.enter (.call name)) := by
          intro w'
          cases c.label with
          | none => exact .refl i w'
          | some name => exact untouched_enter (e := .call name) trivial
        exact two (h.trans (hu _)) (neutral rfl rfl) (Instr.spares_of_owner hij rfl)
    | fork saga detached =>
      exact immediate hij ((h.trans (untouched_createTask hij _ _ _)).trans
        (untouched_schedule hij _)) _ _
    | join target =>
      simp only [World.startJoin]
      split
      · exact immediate hij h _ _
      · split
        · exact immediate hij h _ _
        · split
          · exact immediate hij h _ _
          · split
            · exact immediate hij h _ _
            · exact suspend hij (h.trans (untouched_setTask hij _ _)) _ _
    | race members =>
      simp only [World.startKeyedRace]
      split
      · exact immediate hij h _ _
      · exact hrace _ _ _ _ h
    | racePositional members => exact hrace _ _ _ _ h
    | all members =>
      cases members with
      | nil => exact immediate hij h _ _
      | cons e es =>
        exact one (h.trans (untouched_insertWait hij _ _)) (Instr.spares_of_owner hij rfl)
    | cancel target =>
      cases target with
      | none => exact two h (Instr.spares_of_owner hij rfl) (Instr.spares_of_owner hij rfl)
      | some u =>
        simp only [World.startCancel]
        split
        · exact immediate hij h _ _
        · exact two h (Instr.spares_of_owner hij rfl) (Instr.spares_of_owner hij rfl)
    | select key => exact immediate hij (h.trans (untouched_readState hij)) _ _

theorem execAnswer (x : EffectId) (result : AnswerExpr) (env : Env) :
    w.Spares i (w.execAnswer ⟨j, t⟩ b nests x result env) := by
  cases result with
  | value y => exact immediate hij (.refl i w) x _
  | fault f => exact immediate hij (.refl i w) x _
  | deferred name =>
    simp only [World.execAnswer]
    split
    · exact awaitDeferred hij (.refl i w) x _
    · exact immediate hij (.refl i w) x _
  | resolved y => exact awaitDeferred hij (untouched_addDeferred _) x _
  | rejected f => exact awaitDeferred hij (untouched_addDeferred _) x _
  | timer ms fault y => exact awaitDeferred hij (untouched_addTimer _ _) x _

theorem execBegun (start : Start) : w.Spares i (w.execBegun ⟨j, t⟩ b nests start) := by
  have hs : ∀ {w' : World} {x : Instr}, Untouched i w w' → x.owner? = some j →
      w.Spares i ⟨[x], w'⟩ := fun h hx => one h (Instr.spares_of_owner hij hx)
  cases nests with
  | nil =>
    simp only [World.execBegun, World.resumeBody]
    cases start with
    | halt => exact hs (.refl i w) rfl
    | pending x =>
      simp only
      split
      · exact hs (untouched_walk hij _ _) rfl
      · exact hs (.refl i w) rfl
    | immediate signal =>
      simp only
      split
      · exact hs (.refl i w) rfl
      · cases signal with
        | ended => exact hs (.refl i w) rfl
        | _ =>
          simp only
          split <;> exact hs (.refl i w) rfl
  | cons n nests =>
    cases n with
    | race x slot rest =>
      cases start with
      | pending m => cases rest <;> exact hs (untouched_setWaits hij _) rfl
      | halt => exact hs (untouched_walk hij _ _) rfl
      | immediate signal =>
        simp only [World.execBegun, World.begunInRace]
        split
        · exact hs (.refl i w) rfl
        · exact immediate hij (untouched_walk hij _ _) x _
    | all x slot rest =>
      have hnext : ∀ w', Untouched i w w' →
          w.Spares i (w'.nextOfAll ⟨j, t⟩ b x slot rest nests) := by
        intro w' h
        cases rest with
        | cons e es => exact hs h rfl
        | nil =>
          simp only [World.nextOfAll]
          split
          · exact immediate hij (h.trans (untouched_setEngine hij _)) x _
          · exact hs h rfl
      cases start with
      | pending m => exact hnext _ (untouched_setWaits hij _)
      | halt => exact hs (untouched_walk hij _ _) rfl
      | immediate signal =>
        cases signal with
        | value v => exact hnext _ (untouched_setWaits hij _)
        | fault | ended =>
          simp only [World.execBegun, World.begunInAll]
          split
          · exact immediate hij (.refl i w) x _
          · exact immediate hij (untouched_walk hij _ _) x _

theorem dropBody : (Instr.dropBody ⟨j, t⟩ b).Spares i := by
  refine neutral rfl ?_
  simp only [Instr.drops?]
  exact if_neg fun h => hij h.symm

theorem execLeave (exit : Exit) : w.Spares i (w.execLeave ⟨j, t⟩ b exit) := by
  have h : Untouched i w (w.setEngine j fun e => { e with current := none }) :=
    untouched_setEngine hij _
  have hD : ∀ {x : Instr}, x.owner? = some j →
      w.Spares i ⟨[.dropBody ⟨j, t⟩ b, x], w.setEngine j fun e => { e with current := none }⟩ :=
    fun hx => two h (dropBody hij) (Instr.spares_of_owner hij hx)
  cases exit with
  | suspended x => exact nil (h.trans (untouched_park hij _ _ _))
  | yielded signal =>
    exact nil ((h.trans (untouched_park hij _ _ _)).trans (untouched_schedule hij _))
  | finished a => cases a <;> exact hD rfl
  | ended => exact hD rfl
  | halted => exact hD rfl

/-! ### The end of tasks -/

theorem cascadeOn {r : Option Cascade × World} (h : Untouched i w r.2) :
    w.Spares i (World.cascadeOn j r) := by
  unfold World.cascadeOn
  split
  · exact nil h
  · exact one h (Instr.spares_of_owner hij rfl)

theorem execReturned (v : Value) : w.Spares i (w.execReturned ⟨j, t⟩ v) := by
  unfold World.execReturned
  split
  · exact nil (.refl i w)
  · split
    · exact nil (.refl i w)
    · split
      · exact one (untouched_setTask hij _ _) (Instr.spares_of_owner hij rfl)
      · exact nil (untouched_setTask hij _ _)

theorem execCascade (c : Cascade) : w.Spares i (w.execCascade j c) := by
  cases c with
  | abort u f => exact one (.refl i w) (Instr.spares_of_owner hij rfl)
  | complete u =>
    simp only [World.execCascade]
    split
    · exact nil (.refl i w)
    · split
      · exact nil (.refl i w)
      · split
        · exact nil (.refl i w)
        · exact cascadeOn hij ((untouched_setTask hij _ _).trans (untouched_finalize hij _ _))

theorem dropping (body : Option Body) : ∀ x ∈ World.dropping ⟨j, t⟩ body, x.Spares i := by
  intro x hx
  cases body with
  | none => cases hx
  | some b =>
    rw [List.mem_singleton.1 hx]
    exact dropBody hij

theorem execAbort (f : Fault) : w.Spares i (w.execAbort ⟨j, t⟩ f) := by
  unfold World.execAbort
  split
  · exact nil (.refl i w)
  · split
    · exact nil (.refl i w)
    · refine ⟨(untouched_setTask hij _ _).trans (untouched_cancelPending hij _), ?_⟩
      intro x hx
      rcases List.mem_append.1 hx with hx | hx
      · rcases List.mem_append.1 hx with hx | hx
        · obtain ⟨u, -, rfl⟩ := List.mem_map.1 hx
          exact Instr.spares_of_owner hij rfl
        · exact dropping hij _ x hx
      · rw [List.mem_singleton.1 hx]
        exact Instr.spares_of_owner hij rfl

theorem execCancel (root : TaskId) : w.Spares i (w.execCancel j root) := by
  unfold World.execCancel
  simp only
  split
  · refine one ?_ (Instr.spares_of_owner hij rfl)
    exact Untouched.foldl (fun _ _ => untouched_setTask hij _ _) _ _
  · exact nil (.refl i w)

theorem execCancelEach (order : List TaskId) (cascades : List Cascade) :
    w.Spares i (w.execCancelEach j order cascades) := by
  unfold World.execCancelEach
  split
  · refine ⟨.refl i w, ?_⟩
    intro x hx
    obtain ⟨c, -, rfl⟩ := List.mem_map.1 hx
    exact Instr.spares_of_owner hij rfl
  · split
    · exact one (.refl i w) (Instr.spares_of_owner hij rfl)
    · refine ⟨(untouched_setTask hij _ _).trans (untouched_cancelPending hij _), ?_⟩
      intro x hx
      rcases List.mem_append.1 hx with hx | hx
      · exact dropping hij _ x hx
      · rw [List.mem_singleton.1 hx]
        exact Instr.spares_of_owner hij rfl

/-- An instruction of another middleware does not concern a middleware. -/
theorem exec {x : Instr} (ho : x.owner? = some j) {c : Config} (hc : x.exec w = some c) :
    w.Spares i c := by
  cases x with
  | drain k => cases ho; cases hc; exact execDrain hij
  | perform k job => cases ho; cases hc; exact execPerform hij job
  | schedule k r => cases ho; cases hc; exact nil (untouched_schedule hij _)
  | poll turn b a =>
    obtain ⟨k, t⟩ := turn
    cases ho
    cases hc
    exact goesOn hij (Enacts.GoesOn.execPoll b a) (untouched_record hij _)
  | advance turn s m =>
    obtain ⟨k, t⟩ := turn
    cases ho
    exact goesOn hij (Enacts.GoesOn.execAdvance hc) (.refl i w)
  | polled turn b step => obtain ⟨k, t⟩ := turn; cases ho; cases hc; exact execPolled hij step
  | trigger turn b nests e => obtain ⟨k, t⟩ := turn; cases ho; cases hc; exact execTrigger hij e
  | answer turn b nests y result env =>
    obtain ⟨k, t⟩ := turn
    cases ho
    cases hc
    exact execAnswer hij y result env
  | cancelDone turn b nests y =>
    obtain ⟨k, t⟩ := turn
    cases ho
    cases hc
    unfold World.execCancelDone
    split
    · exact one (.refl i w) (Instr.spares_of_owner hij rfl)
    · exact immediate hij (.refl i w) y _
  | begun turn b nests start => obtain ⟨k, t⟩ := turn; cases ho; cases hc; exact execBegun hij start
  | leave turn b exit => obtain ⟨k, t⟩ := turn; cases ho; cases hc; exact execLeave hij exit
  | returned turn v => obtain ⟨k, t⟩ := turn; cases ho; cases hc; exact execReturned hij v
  | abort turn f => obtain ⟨k, t⟩ := turn; cases ho; cases hc; exact execAbort hij f
  | abortDone turn f b =>
    obtain ⟨k, t⟩ := turn
    cases ho
    cases hc
    cases b with
    | true => exact nil (untouched_setEngine hij _)
    | false => exact cascadeOn hij (untouched_finalize hij _ _)
  | conclude turn =>
    obtain ⟨k, t⟩ := turn
    cases ho
    cases hc
    exact cascadeOn hij ((untouched_setEngine hij _).trans (untouched_finalize hij _ _))
  | cascade k c => cases ho; cases hc; exact execCascade hij c
  | cancel k root => cases ho; cases hc; exact execCancel hij root
  | cancelEach k order cascades => cases ho; cases hc; exact execCancelEach hij order cascades
  | cancelOne turn b rest cascades =>
    obtain ⟨k, t⟩ := turn
    cases ho
    cases hc
    cases b with
    | true => exact one (untouched_setEngine hij _) (Instr.spares_of_owner hij rfl)
    | false => exact one (untouched_finalize hij _ _) (Instr.spares_of_owner hij rfl)
  | emit k a sender => cases ho; cases hc; exact execEmit hij a sender
  | forwarded k a sender => cases ho; cases hc; exact execForwarded hij a sender
  | _ => cases ho

end

end Spares

/-! ## User code -/

/-- What user code comes to: it spares a middleware, or intervenes. -/
def Bears (i : MiddlewareId) (w : World) (c : Config) : Prop :=
  w.Spares i c ∨
    (w.alive? i = some true ∧ dropsOf i c.todo = [] ∧ ∃ k' es, Advances i w c.world k' es ∧
      Intervenes i (w.past i) (w.core i) k' (framesOf i c.todo) es)

namespace Bears

theorem spares {c : Config} (h : w.Spares i c) : w.Bears i c := Or.inl h

theorem has_of_alive (h : w.alive? i = some true) : w.Has i := by
  rw [has_iff, h]
  rfl

/-- User code may do something else before. -/
theorem of_untouched {c : Config} (hu : Untouched i w w') (h : w'.Bears i c) : w.Bears i c := by
  rcases h with h | ⟨ha, hd, k', es, h, hi⟩
  · exact Or.inl ⟨hu.trans h.untouched, h.todo⟩
  · rw [hu.alive] at ha
    rw [hu.past, hu.core] at hi
    refine Or.inr ⟨ha, hd, k', es, ⟨h.core, ?_, h.alive.trans hu.alive, has_of_alive ha⟩, hi⟩
    rw [h.past, hu.past]

/-- Instructions of user code may follow. -/
theorem followedBy {c : Config} (h : w.Bears i c) {after : List Instr}
    (ha : ∀ x ∈ after, x.Spares i) : w.Bears i (c.followedBy after) := by
  rcases h with h | ⟨halive, hd, k', es, h, hi⟩
  · exact Or.inl (h.followedBy ha)
  · refine Or.inr ⟨halive, ?_, k', es, h, ?_⟩
    · rw [Config.followedBy, dropsOf_append, hd, dropsOf_spares ha]
      rfl
    · rw [Config.followedBy, framesOf_append, framesOf_spares ha, List.append_nil]
      exact hi

theorem drives {k : Core} {es : List Event} (h : Advances i w w' k es) {work : List Instr}
    (hw : framesOf i work = work) :
    ∃ k' G, Drives i k work k' G ∧ Advances i w (w'.enterDriver i work).world k' es ∧
      framesOf i (w'.enterDriver i work).todo = G := by
  have hd : (w'.engine i).driving = k.driving := by
    rw [← h.core]
    rfl
  unfold World.enterDriver
  rw [hd]
  cases hk : k.driving with
  | true => exact ⟨k, work, .within hk, h, hw⟩
  | false =>
    refine ⟨_, _, .starts hk, ?_, ?_⟩
    · exact h.setEngine (f := fun e => { e with driving := true })
        (fun k => { k with driving := true }) fun _ => rfl
    · simp only [Bool.false_eq_true, if_false]
      rw [framesOf_append, hw, framesOf_one rfl]

theorem drops_enterDriver {work : List Instr} (hw : dropsOf i work = []) :
    dropsOf i (w.enterDriver j work).todo = [] := by
  unfold World.enterDriver
  split
  · exact hw
  · rw [dropsOf_append, hw]
    simp [Instr.drops?]

theorem alive_of_living {m : Middleware} (h : w.living? i = some m) :
    w.alive? i = some true := by
  obtain ⟨h1, h2⟩ := Option.filter_eq_some_iff.1 h
  simp [alive?, h1, h2]

theorem notify {target : EffectRef} (hx : LeafName (w.past target.mw) target.effect)
    (signal : Signal) : w.Bears i (w.notify target signal) := by
  unfold World.notify
  split
  · exact spares (.nil (.refl i w))
  · rename_i m hm
    by_cases hij : i = target.mw
    · subst hij
      obtain ⟨k', G, hd, h, hG⟩ := drives ((Advances.start (has_of_alive (alive_of_living hm))).schedule
        (.settle target.effect signal)) (framesOf_nil _)
      refine Or.inr ⟨alive_of_living hm, drops_enterDriver rfl, k', [], h, ?_⟩
      rw [hG]
      exact .settles (Enacts.settling_one hx signal) hd fun e he => by cases he
    · exact spares (.enterDriver hij (untouched_schedule hij _) fun x hx => by cases hx)

theorem of_neutral (h : Untouched i w w') {x : Instr} (hx : x.owner? = none)
    (hd : x.drops? i = none) : w.Bears i ⟨[x], w'⟩ := spares (.one h (Spares.neutral hx hd))

theorem reply_spares (site : Site) (name : String) (r : Reply) :
    ∀ x ∈ [Instr.reply site name r], x.Spares i := by
  intro x hx
  rw [List.mem_singleton.1 hx]
  exact Spares.neutral rfl rfl

theorem settleDeferred (hw : w.Knows) (d : DeferredId) (a : Answer) :
    w.Bears i (w.settleDeferred d a).2 := by
  unfold World.settleDeferred
  split
  · exact spares (.nil (.refl i w))
  · rename_i deferred hd
    have h1 : Untouched i w
        { w with deferreds := w.deferreds.insert d (deferred.settle a).deferred } := .of_eq rfl rfl
    simp only
    split
    · exact spares (.nil h1)
    · rename_i target ht
      refine of_untouched h1 (notify ?_ _)
      refine hw.listener d deferred hd target ?_
      unfold Deferred.settle at ht
      split at ht
      · cases ht
      · exact ht

theorem deliver {sink : Sink} {d : Delivery}
    (hs : (Instr.deliver sink d).Knows w.past) : w.Bears i (w.execDeliver sink d) := by
  cases sink with
  | effect target => exact notify hs _
  | script tag next env => exact of_neutral (untouched_enter (e := .taker tag d) trivial) rfl rfl

theorem moveClock (hw : w.Knows) (target : Nat) : w.Bears i (w.execMoveClock target) := by
  unfold World.execMoveClock
  split
  · exact spares (.nil (.of_eq rfl rfl))
  · rename_i t _
    have hu : Untouched i w
        { w with timers := w.timers.filter fun u => u.id ≠ t.id, now := t.deadline } := .of_eq rfl rfl
    have hl : w.Learns
        { w with timers := w.timers.filter fun u => u.id ≠ t.id, now := t.deadline } :=
      (Learns.start hw).of_eq rfl rfl rfl rfl
    refine of_untouched hu (followedBy (settleDeferred hl.knows t.deferred t.answer) ?_)
    intro x hx
    rw [List.mem_singleton.1 hx]
    exact Spares.neutral rfl rfl

/-! ### Operations -/

theorem opRun (h : w.alive? i = some true ∨ i ≠ j) (site : Site) (env : Env) (s : SagaExpr)
    (label : Option String) : w.Bears i (w.opRun site env j s label) := by
  have hstarted : ∀ x ∈ [Instr.started site label (w.nextTaskRef j (w.evalSaga env s))],
      x.Spares i := by
    intro x hx
    rw [List.mem_singleton.1 hx]
    exact Spares.neutral rfl rfl
  by_cases hij : i = j
  · subst hij
    have ha := h.resolve_right fun h => h rfl
    have h1 := ((Advances.start (has_of_alive ha)).createTask (w.evalSaga env s) none false).schedule
      (.start (w.nextTaskRef i (w.evalSaga env s)).id)
    obtain ⟨k', G, hd, h2, hG⟩ := drives h1 (framesOf_nil _)
    refine followedBy (Or.inr ⟨ha, drops_enterDriver rfl, k', _, h2, ?_⟩) hstarted
    rw [hG]
    exact .spawns hd
  · refine spares (Spares.followedBy (.enterDriver hij ?_ fun x hx => by cases hx) hstarted)
    exact (untouched_createTask hij _ _ _).trans (untouched_schedule hij _)

theorem queue (ha : w.alive? i = some true) (hd : (w.engine i).driving = true) (e : Errand)
    {x : Instr} (hx : x.Spares i) : w.Bears i ⟨[x], w.queue i e⟩ := by
  obtain ⟨n, h⟩ := (Advances.start (has_of_alive ha)).queue e
  rw [← Core.grow_errand] at h
  have hx' : ∀ y ∈ [x], y.Spares i := fun y hy => List.mem_singleton.1 hy ▸ hx
  refine Or.inr ⟨ha, dropsOf_spares hx', _, _, h, ?_⟩
  rw [framesOf_spares hx']
  exact .queues hd (by simp [Quiet, Event.IsQuiet])

theorem opDispatch (h : w.alive? i = some true ∨ i ≠ j) (site : Site) (a : Action) :
    w.Bears i (w.opDispatch site j a) := by
  unfold World.opDispatch
  by_cases hij : i = j
  · subst hij
    have ha := h.resolve_right fun h => h rfl
    split
    · rename_i hd
      exact queue ha hd _ (Spares.neutral rfl rfl)
    · rename_i hd
      have hd' : (w.engine i).driving = false := by simpa using hd
      have h1 := (Advances.start (has_of_alive ha)).setEngine
        (f := fun e => { e with driving := true }) (fun k => { k with driving := true })
        fun _ => rfl
      refine Or.inr ⟨ha, ?_, _, _, h1, ?_⟩
      · simp [dropsOf, Instr.drops?]
      · rw [framesOf_one rfl]
        exact .sends hd'
  · split
    · exact spares (.one (untouched_queue hij _) (Spares.neutral rfl rfl))
    · exact spares (.one (untouched_setEngine hij _) (Instr.spares_of_owner hij rfl))

theorem opFinish (hw : w.Knows) (h : w.alive? i = some true ∨ i ≠ j) (site : Site) :
    w.Bears i (w.opFinish site j) := by
  unfold World.opFinish
  by_cases hij : i = j
  · subst hij
    have ha := h.resolve_right fun h => h rfl
    split
    · rename_i hd
      exact queue ha hd _ (Spares.neutral rfl rfl)
    · obtain ⟨rs, h1, hrs⟩ := (Advances.start (has_of_alive ha)).endBus
      rw [← Core.grow_reactions] at h1
      obtain ⟨k', G, hd, h2, hG⟩ := drives h1 (framesOf_nil _)
      refine followedBy (Or.inr ⟨ha, drops_enterDriver rfl, k', _, h2, ?_⟩) (reply_spares _ _ _)
      rw [hG]
      rw [Core.grow_reactions] at hd
      refine .settles ?_ hd (by simp [Quiet, Event.IsQuiet])
      intro r hr
      obtain ⟨t, ht, rfl⟩ := hrs r hr
      exact ⟨_, _, rfl, ((hw.engine i).bus t ht).leafName⟩
  · split
    · exact spares (.one (untouched_queue hij _) (Spares.neutral rfl rfl))
    · exact spares (Spares.followedBy
        (.enterDriver hij (untouched_endBus hij) fun x hx => by cases hx) (reply_spares _ _ _))

theorem opCancel (site : Site) (t : TaskRef) : w.Bears i (w.opCancel site t) := by
  unfold World.opCancel
  split
  · exact of_neutral (.refl i w) rfl rfl
  · rename_i m hm
    refine followedBy ?_ (reply_spares _ _ _)
    by_cases hij : i = t.owner
    · subst hij
      have ha := alive_of_living hm
      obtain ⟨k', G, hd, h2, hG⟩ := drives (Advances.start (has_of_alive ha))
        (framesOf_one (x := .cancel t.owner t.id) rfl)
      refine Or.inr ⟨ha, drops_enterDriver (by simp [Instr.drops?]), k', [], h2, ?_⟩
      rw [hG]
      exact .cancels hd
    · refine spares (.enterDriver hij (.refl i w) ?_)
      intro x hx
      rw [List.mem_singleton.1 hx]
      exact Instr.spares_of_owner hij rfl

theorem readState (h : w.alive? i = some true ∨ i ≠ j) {x : Instr} (hx : x.Spares i) :
    w.Bears i ⟨[x], (w.readState j).2⟩ := by
  by_cases hij : i = j
  · subst hij
    have ha := h.resolve_right fun h => h rfl
    obtain ⟨quiet, hq, h1⟩ := (Advances.start (has_of_alive ha)).readState
    have hx' : ∀ y ∈ [x], y.Spares i := fun y hy => List.mem_singleton.1 hy ▸ hx
    refine Or.inr ⟨ha, dropsOf_spares hx', _, _, h1, ?_⟩
    rw [framesOf_spares hx']
    exact .quietly hq
  · exact spares (.one (untouched_readState hij) hx)

theorem opPut (site : Site) (c : ChannelId) (channel : Channel Sink) (v : Value) :
    w.Bears i (w.opPut site c channel v) := by
  have h1 := untouched_putChannel (i := i) (w := w) c channel v
  unfold World.opPut
  simp only
  split
  · exact of_neutral h1 rfl rfl
  · exact spares (.two h1 (Spares.neutral rfl rfl) (Spares.neutral rfl rfl))
  · exact of_neutral h1 rfl rfl

theorem opTake (site : Site) (env : Env) (c : ChannelId) (channel : Channel Sink) (p : Pattern)
    (tag : String) (next : List Op) : w.Bears i (w.opTake site env c channel p tag next) := by
  have h1 := untouched_takeChannel (i := i) (w := w) c channel p (.script tag next env)
  unfold World.opTake
  simp only
  split
  · exact spares (.two h1 (Spares.neutral rfl rfl) (Spares.neutral rfl rfl))
  · exact of_neutral h1 rfl rfl

theorem opClose (site : Site) (c : ChannelId) (channel : Channel Sink) :
    w.Bears i (w.opClose site c channel) := by
  refine spares ⟨.of_eq rfl rfl, ?_⟩
  intro x hx
  rcases List.mem_append.1 hx with hx | hx
  · obtain ⟨t, -, rfl⟩ := List.mem_map.1 hx
    exact Spares.neutral rfl rfl
  · exact reply_spares _ _ _ x hx

theorem untouched_opUntake (tag : String) : Untouched i w (w.opUntake tag).2 := by
  unfold World.opUntake
  split
  · exact .refl i w
  · split
    · exact .refl i w
    · exact .of_eq rfl rfl

theorem untouched_opWatch (t : TaskRef) (tag : String) : Untouched i w (w.opWatch t tag).2 := by
  unfold World.opWatch
  simp only
  split <;> exact .of_eq rfl rfl

/-- Dropping another middleware does not concern a middleware. -/
theorem opDrop (site : Site) (h : site = .nested ∨ i ≠ j) : w.Bears i (w.opDrop site j) := by
  unfold World.opDrop
  split
  · rename_i m hm
    have hij : i ≠ j := h.resolve_left fun h => by cases h
    refine spares ⟨⟨?_, rfl, ?_⟩, ?_⟩
    · simp [World.engine, hij]
    · simp [World.alive?, hij]
    · intro x hx
      rcases List.mem_append.1 hx with hx | hx
      · obtain ⟨e, -, hx⟩ := List.mem_flatMap.1 hx
        obtain ⟨b, -, rfl⟩ := Option.map_eq_some_iff.1 (Option.mem_toList.1 hx)
        exact Spares.dropBody hij
      · exact reply_spares _ _ _ x hx
  · exact of_neutral (.refl i w) rfl rfl
  · exact of_neutral (.refl i w) rfl rfl

theorem withMiddleware (site : Site) (o : Op) {f : Middleware → Config}
    (hf : w.alive? i = some true ∨ i ≠ j → ∀ m, w.Bears i (f m)) :
    w.Bears i (w.withMiddleware site o j f) := by
  unfold World.withMiddleware
  split
  · exact of_neutral (.refl i w) rfl rfl
  · rename_i m hm
    refine hf ?_ m
    by_cases hij : i = j
    · subst hij
      exact Or.inl (alive_of_living hm)
    · exact Or.inr hij

theorem withTask (site : Site) (env : Env) (o : Op) (x : Expr) {f : TaskRef → Config}
    (hf : ∀ t, w.Bears i (f t)) : w.Bears i (w.withTask site env o x f) := by
  unfold World.withTask
  split
  · exact hf _
  · exact of_neutral (.refl i w) rfl rfl

theorem withChannel (site : Site) (o : Op) (name : String) {f : ChannelId → Channel Sink → Config}
    (hf : ∀ c channel, w.Bears i (f c channel)) : w.Bears i (w.withChannel site o name f) := by
  unfold World.withChannel
  split
  · exact of_neutral (.refl i w) rfl rfl
  · split
    · exact of_neutral (.refl i w) rfl rfl
    · exact hf _ _

theorem opSettle (hw : w.Knows) (site : Site) (o : Op) (name : String) (a : Answer) :
    w.Bears i (w.opSettle site o name a) := by
  unfold World.opSettle
  split
  · exact of_neutral (.refl i w) rfl rfl
  · exact followedBy (settleDeferred hw _ a) (reply_spares _ _ _)

theorem runOp (hw : w.Knows) (site : Site) (env : Env) (o : Op)
    (ho : site = .nested ∨ o ≠ .drop i) : w.Bears i (w.runOp site env o) := by
  have h1 : ∀ {x : Instr}, x.owner? = none → x.drops? i = none → w.Bears i ⟨[x], w⟩ :=
    fun hx hd => of_neutral (.refl i w) hx hd
  cases o with
  | run j s label => exact withMiddleware site _ fun h _ => opRun h site env s label
  | dispatch j a => exact withMiddleware site _ fun h _ => opDispatch h site _
  | finish j => exact withMiddleware site _ fun h _ => opFinish hw h site
  | live j => exact withMiddleware (j := j) site _ fun _ _ => h1 rfl rfl
  | state j => exact withMiddleware site _ fun h _ => readState h (Spares.neutral rfl rfl)
  | settings j => exact withMiddleware (j := j) site _ fun _ _ => h1 rfl rfl
  | cancel x => exact withTask site env _ x fun t => opCancel site t
  | inspect x => exact withTask site env _ x fun t => h1 rfl rfl
  | sameTask a b => exact h1 rfl rfl
  | watch x tag =>
    exact withTask site env _ x fun t => of_neutral (untouched_opWatch t tag) rfl rfl
  | wakes tag => exact h1 rfl rfl
  | put name x => exact withChannel site _ name fun c channel => opPut site c channel _
  | take name p tag next =>
    exact withChannel site _ name fun c channel => opTake site env c channel p tag next
  | untake tag => exact of_neutral (untouched_opUntake tag) rfl rfl
  | close name => exact withChannel site _ name fun c channel => opClose site c channel
  | sameChannel a b => exact h1 rfl rfl
  | showChannel name => exact withChannel site _ name fun c channel => h1 rfl rfl
  | resolve name x => exact opSettle hw site _ name _
  | reject name f => exact opSettle hw site _ name _
  | showDeferred name =>
    simp only [World.runOp]
    split <;> exact h1 rfl rfl
  | log tag x => exact of_neutral (untouched_enter (e := .log tag _) trivial) rfl rfl
  | drop j =>
    refine opDrop site (ho.imp id ?_)
    rintro h rfl
    exact h rfl
  | advance ms =>
    simp only [World.runOp, World.opAdvance]
    split
    · exact spares (.two (.refl i w) (Spares.neutral rfl rfl) (Spares.neutral rfl rfl))
    · exact h1 rfl rfl
    · exact h1 rfl rfl
  | unknown name => exact h1 rfl rfl

/-- An instruction of user code spares a middleware or intervenes. -/
theorem exec (hw : w.Knows) {x : Instr} (hx : x.Knows w.past) (ho : x.owner? = none)
    (hd : x.drops? i = none) {c : Config} (hc : x.exec w = some c) : w.Bears i c := by
  cases x with
  | dropBody turn b =>
    cases hc
    have hij : i ≠ turn.mw := by
      rintro rfl
      simp [Instr.drops?] at hd
    exact of_neutral (untouched_record hij _) rfl rfl
  | deliver sink d => cases hc; exact deliver hx
  | guards gs =>
    cases hc
    cases gs with
    | nil => exact spares (.nil (.refl i w))
    | cons g gs =>
      exact spares (.two (untouched_enter (e := .guard g.name) trivial) (Spares.neutral rfl rfl)
        (Spares.neutral rfl rfl))
  | ops env os =>
    cases hc
    cases os with
    | nil => exact spares (.nil (.refl i w))
    | cons o os =>
      exact spares (.two (.refl i w) (Spares.neutral rfl rfl) (Spares.neutral rfl rfl))
  | op site env o =>
    obtain ⟨w', hs, rfl⟩ := Option.map_eq_some_iff.1 hc
    have hu : ∀ i, Untouched i w w' := Enacts.GoesOn.spend (fun i => .refl i w) hs
    have hw' : w'.Knows := (Teaches.spend (.start hw) hs).knows
    cases site with
    | nested => exact of_untouched (hu i) (runOp hw' .nested env o (Or.inl rfl))
    | outside => exact hx.elim
  | reply site name r =>
    cases hc
    cases site with
    | outside => exact spares (.nil (.of_eq rfl rfl))
    | nested => exact spares (.nil (untouched_enter (e := .op name r) trivial))
  | started site label t =>
    cases hc
    exact of_neutral (Enacts.GoesOn.register (fun i => .refl i w) label _ i) rfl rfl
  | registered site tag c id =>
    cases hc
    have h1 : Untouched i w { w with takerTags := w.takerTags.insert tag (c, id) } :=
      .of_eq rfl rfl
    exact of_neutral h1 rfl rfl
  | moveClock target => cases hc; exact moveClock hw target
  | _ => cases ho

end Bears

/-! ## Every step is a move -/

section

variable {x : Instr} {rest : List Instr} {next : Config}

theorem moves_of_spares (hx : x.Spares i) (h : w.Spares i next) :
    Moves i (Config.view ⟨x :: rest, w⟩ i) ((next.followedBy rest).view i) := by
  have hv : (next.followedBy rest).view i = Config.view ⟨x :: rest, w⟩ i := by
    simp only [Config.view, Config.followedBy, framesOf_append, dropsOf_append,
      framesOf_spares h.todo, dropsOf_spares h.todo, h.untouched.alive, h.untouched.core,
      h.untouched.past, dropsOf_cons, hx.2, framesOf_cons, if_neg hx.1]
    rfl
  rw [hv]
  exact .still

theorem moves_of_bears (hx : x.Spares i) (hu : ∀ f ∈ framesOf i rest, ¬ f.Urgent)
    (h : w.Bears i next) :
    Moves i (Config.view ⟨x :: rest, w⟩ i) ((next.followedBy rest).view i) := by
  rcases h with h | ⟨ha, hd, k', es, h, hi⟩
  · exact moves_of_spares hx h
  · simp only [Config.view, Config.followedBy, framesOf_append, dropsOf_append, hd, h.alive, ha,
      h.core, h.past, dropsOf_cons, hx.2, framesOf_cons, if_neg hx.1]
    exact .intervenes hi hu

theorem moves_of_enacts (hx : x.owner? = some i) (hu : ∀ f ∈ framesOf i rest, ¬ f.Urgent)
    (h : w.Enacts i x next) :
    Moves i (Config.view ⟨x :: rest, w⟩ i) ((next.followedBy rest).view i) := by
  obtain ⟨k', es, h, hd⟩ := h
  have hdrop : x.drops? i = none := by
    cases x with
    | dropBody => cases hx
    | _ => rfl
  simp only [Config.view, Config.followedBy, framesOf_append, dropsOf_append, h.alive, h.core,
    h.past, dropsOf_cons, hdrop, framesOf_cons, if_pos hx]
  exact .does hd hu

theorem moves_of_dropBody (hi : w.Has i) (hu : ∀ f ∈ framesOf i rest, ¬ f.Urgent) (t : TaskId)
    (b : Body) : Moves i (Config.view ⟨.dropBody ⟨i, t⟩ b :: rest, w⟩ i)
      (((w.execDropBody ⟨i, t⟩ b).followedBy rest).view i) := by
  have h := (Advances.start hi).record (.bodyDropped t)
  have hd : (Instr.dropBody ⟨i, t⟩ b).drops? i = some t := if_pos rfl
  simp only [Config.view, Config.followedBy, World.execDropBody, List.nil_append, h.alive, h.core,
    h.past, dropsOf_cons, hd, framesOf_neutral (x := .dropBody ⟨i, t⟩ b) rfl]
  exact .drops hu

/-- The bodies that the tasks of a table still have are dropped, one after the other. -/
def dropBodies (i : MiddlewareId) (tasks : Tasks) : List Instr :=
  tasks.entries.flatMap fun e => (e.2.body.map fun body => Instr.dropBody ⟨i, e.1⟩ body).toList

theorem dropsOf_dropBodies (tasks : Tasks) :
    dropsOf i (dropBodies i tasks) = (tasks.entries.filter fun e => e.2.body.isSome).map Prod.fst := by
  obtain ⟨es⟩ := tasks
  simp only [dropBodies]
  induction es with
  | nil => rfl
  | cons e es ih =>
    rw [List.flatMap_cons, dropsOf_append, ih]
    cases h : e.2.body <;> simp [h, Instr.drops?]

theorem mem_dropsOf_dropBodies {tasks : Tasks} (hk : tasks.keys.Nodup) (t : TaskId) :
    t ∈ dropsOf i (dropBodies i tasks) ↔ ∃ n, tasks.get? t = some n ∧ n.body.isSome = true := by
  rw [dropsOf_dropBodies]
  simp only [List.mem_map, List.mem_filter]
  constructor
  · rintro ⟨⟨u, n⟩, ⟨hn, hb⟩, rfl⟩
    exact ⟨n, (Table.mem_entries hk).1 hn, hb⟩
  · rintro ⟨n, hn, hb⟩
    exact ⟨(t, n), ⟨(Table.mem_entries hk).2 hn, hb⟩, rfl⟩

theorem nodup_dropsOf_dropBodies {tasks : Tasks} (hk : tasks.keys.Nodup) :
    (dropsOf i (dropBodies i tasks)).Nodup := by
  rw [dropsOf_dropBodies]
  exact hk.sublist (List.filter_sublist.map _)

theorem framesOf_dropBodies (tasks : Tasks) : framesOf i (dropBodies i tasks) = [] := by
  refine List.filter_eq_nil_iff.2 fun x hx => ?_
  obtain ⟨e, -, hx⟩ := List.mem_flatMap.1 hx
  obtain ⟨b, -, rfl⟩ := Option.map_eq_some_iff.1 (Option.mem_toList.1 hx)
  simp [Instr.owner?]

/-- When a middleware is dropped, so are the bodies that its tasks still have. -/
theorem moves_of_drop {m : Middleware} (hm : w.living? i = some m) (hk : w.Knows) {x : Instr}
    (hx : x.Spares i) : Moves i (Config.view ⟨[x], w⟩ i) ((w.opDrop .outside i).view i) := by
  have ha : w.alive? i = some true := Bears.alive_of_living hm
  have hw : w.engine i = m.engine := engine_of_get? (Option.filter_eq_some_iff.1 hm).1
  have hd : m.engine.tasks.keys.Nodup := hw ▸ (hk.engine i).distinct
  have hv : (w.opDrop .outside i).view i =
      ⟨false, Engine.core {}, [], dropsOf i (dropBodies i m.engine.tasks), w.past i⟩ := by
    have htodo : (w.opDrop .outside i).todo =
        dropBodies i m.engine.tasks ++ [.reply .outside "drop_mw" (.bool true)] := by
      simp only [opDrop, hm]
      rfl
    let gone : Middleware := { m with alive := false, engine := { outcomes := m.engine.outcomes } }
    have hworld : (w.opDrop .outside i).world =
        { w with middlewares := w.middlewares.insert i gone } := by
      simp only [opDrop, hm]
      rfl
    simp only [Config.view, htodo, hworld, framesOf_append, dropsOf_append, framesOf_dropBodies]
    simp [alive?, core, World.engine, Engine.core, World.past, Instr.owner?, Instr.drops?, gone]
  rw [hv]
  simp only [Config.view, ha, framesOf_cons, if_neg hx.1, dropsOf_cons, hx.2, framesOf_nil,
    dropsOf_nil]
  refine .dies ⟨nodup_dropsOf_dropBodies hd, fun t => ?_⟩
  rw [mem_dropsOf_dropBodies hd, posture_core, task?, hw]
  constructor
  · rintro ⟨n, hn, hb⟩
    exact ⟨n.posture, by rw [hn]; rfl, hb⟩
  · rintro ⟨p, hp, hb⟩
    obtain ⟨n, hn, rfl⟩ := Option.map_eq_some_iff.1 hp
    exact ⟨n, hn, hb⟩

/-- An operation from outside. -/
theorem moves_of_op (hk : w.Knows) {x : Instr} (hx : x.Spares i) (o : Op) :
    Moves i (Config.view ⟨[x], w⟩ i) ((w.runOp .outside .empty o).view i) := by
  have hbears : o ≠ .drop i →
      Moves i (Config.view ⟨[x], w⟩ i) ((w.runOp .outside .empty o).view i) := by
    intro ho
    have h : Moves i (Config.view ⟨x :: [], w⟩ i)
        (((w.runOp .outside .empty o).followedBy []).view i) :=
      moves_of_bears hx (fun f hf => by cases hf) (Bears.runOp hk .outside .empty o (Or.inr ho))
    simpa [Config.followedBy] using h
  by_cases ho : o = .drop i
  · subst ho
    show Moves i _ ((w.opDrop .outside i).view i)
    cases hm : w.living? i with
    | some m => exact moves_of_drop hm hk hx
    | none =>
      have h : w.Spares i (w.opDrop .outside i) := by
        simp only [opDrop, hm]
        exact .one (.refl i w) (Spares.neutral rfl rfl)
      have hs : Moves i (Config.view ⟨x :: [], w⟩ i)
          ((Config.followedBy (w.opDrop .outside i) []).view i) := moves_of_spares hx h
      simpa [Config.followedBy] using hs
  · exact hbears ho

end

end World

theorem Instr.Later.not_urgent {x : Instr} (h : x.Later) : ¬ x.Urgent := by
  cases x with
  | perform | poll | trigger | begun | leave => exact h.elim
  | _ => exact id

/-- Every step of the machine is a move of every middleware. -/
theorem Config.moves_of_step {c c' : Config} {i : MiddlewareId} (hk : c.Knows)
    (hi : c.world.Has i) (h : c.step = some c') : Moves i (c.view i) (c'.view i) := by
  obtain ⟨todo, w⟩ := c
  unfold Config.step at h
  simp only at h
  split at h
  · cases h
  · rename_i x rest
    obtain ⟨next, hn, rfl⟩ := Option.map_eq_some_iff.1 h
    have hu : ∀ f ∈ framesOf i rest, ¬ f.Urgent :=
      fun f hf => (hk.later f (List.mem_filter.1 hf).1).not_urgent
    rcases hk.todo with ⟨o, ho⟩ | hx
    · cases ho
      obtain ⟨w', hs, rfl⟩ := Option.map_eq_some_iff.1 hn
      have hw : World.Untouched i w w' := World.Enacts.GoesOn.spend (fun i => .refl i w) hs i
      have hw' : w'.Knows := (World.Teaches.spend (.start hk.world) hs).knows
      have hop : Instr.Spares i (.op .outside .empty o) := World.Spares.neutral rfl rfl
      have hv : Config.view ⟨[.op .outside .empty o], w⟩ i =
          Config.view ⟨[.op .outside .empty o], w'⟩ i := by
        simp only [Config.view, hw.alive, hw.core, hw.past]
      have := World.moves_of_op hw' hop o
      rw [hv]
      simpa [Config.followedBy] using this
    · have hxk : x.Knows w.past := hx x List.mem_cons_self
      cases ho : x.owner? with
      | some j =>
        by_cases hij : i = j
        · subst hij
          exact World.moves_of_enacts ho hu (.exec hi hk.world hxk ho hn)
        · exact World.moves_of_spares (Instr.spares_of_owner hij ho) (.exec hij ho hn)
      | none =>
        cases hd : x.drops? i with
        | none =>
          exact World.moves_of_bears (World.Spares.neutral ho hd) hu (.exec hk.world hxk ho hd hn)
        | some t =>
          cases x with
          | dropBody turn b =>
            obtain ⟨j, u⟩ := turn
            simp only [Instr.drops?] at hd
            split at hd
            · rename_i hij
              cases hij
              cases hn
              exact World.moves_of_dropBody hi hu u b
            · cases hd
          | _ => cases hd

end SagaMachine
