import SagaMachine.Proofs.Consistency
import SagaMachine.Proofs.Encounters
import SagaMachine.Proofs.Unfolding

/-!
# Settlements come once

A settlement that is on its way is the only one: until it arrives, nothing else schedules a
settlement of the same effect, or leaves behind an instruction that would.

Main statement: `Scenario.Visits.withholds`.
-/

namespace SagaMachine

/-! ## Reactions that settle something else -/

/-- Reactions were scheduled, but no settlement of an effect; the stack was left alone. -/
def Agenda.Withholds (x : EffectId) (a a' : Agenda) : Prop :=
  ∃ rs, a'.fresh = a.fresh ++ rs ∧ a'.stack = a.stack ∧ ∀ signal, .settle x signal ∉ rs

namespace Agenda.Withholds

variable {x : EffectId} {a a₁ a' : Agenda}

theorem of_eq (h : (a'.fresh, a'.stack) = (a.fresh, a.stack)) : a.Withholds x a' :=
  ⟨[], by simpa using (Prod.mk.inj h).1, (Prod.mk.inj h).2, by simp⟩

theorem trans (h : a.Withholds x a₁) (h' : a₁.Withholds x a') : a.Withholds x a' := by
  obtain ⟨rs, he, hs, hrs⟩ := h
  obtain ⟨rs', he', hs', hrs'⟩ := h'
  refine ⟨rs ++ rs', by rw [he', he, List.append_assoc], hs'.trans hs, fun signal hm => ?_⟩
  exact (List.mem_append.1 hm).elim (hrs signal) (hrs' signal)

end Agenda.Withholds

/-- An instruction that may schedule settlements. -/
def Instr.tells : Instr → Bool
  | .drain _ | .perform _ (.errand _) | .schedule .. | .forwarded .. | .trigger .. | .answer ..
  | .abortDone .. | .conclude _ | .cascade .. | .cancelOne .. => true
  | _ => false

section

variable {i : MiddlewareId} {k k' : Core} {G : List Instr} {D : List TaskId} {past es : List Event}
  {x : Instr} {y : EffectId} {t : TaskId}

/-- Most instructions schedule no settlement at all. -/
theorem Does.withholds (h : Does i past x k k' G D es) (hx : x.tells = false) :
    k.agenda.Withholds y k'.agenda := by
  cases h with
  | rest | next | errand | schedule | forwarded | forwardedCall | triggerHalted | triggerSettles
  | triggerForks | triggerSuspends | triggerCalls | triggerCancels | triggerOpens | answerSettles
  | answerSuspends | abortHalts | abortDone | conclude | cascadeAbort | cascadeLate
  | cascadeComplete | cancelHalts | cancelOne => cases hx
  | start h | resume h | wake _ _ h => exact .of_eq (by rw [h.agenda])
  | leaveYielded => exact ⟨[_], rfl, rfl, by simp⟩
  | allNext hk | allFull hk | allComplete hk =>
    rcases hk with ⟨_, _, rfl⟩ | ⟨_, _, rfl⟩ <;> exact .of_eq rfl
  | cancel => exact .of_eq (by rw [Core.Defers.agenda_cancelAll])
  | _ => exact .of_eq rfl

end

namespace World

variable {w w' w'' : World} {r : EffectRef} {i j : MiddlewareId}

/-- Reactions were scheduled, but no settlement of a certain effect. -/
def Withholds (r : EffectRef) (w w' : World) : Prop :=
  (w.engine r.mw).agenda.Withholds r.effect (w'.engine r.mw).agenda

namespace Withholds

theorem refl (r : EffectRef) (w : World) : w.Withholds r w := .of_eq rfl

theorem trans (h : w.Withholds r w') (h' : w'.Withholds r w'') : w.Withholds r w'' :=
  Agenda.Withholds.trans h h'

theorem untouched (h : w.Withholds r w') (hu : Untouched r.mw w' w'') : w.Withholds r w'' :=
  h.trans (.of_eq (by rw [hu.engine]))

theorem record (h : w.Withholds r w') (e : Event) : w.Withholds r (w'.record j e) :=
  h.trans (.of_eq rfl)

/-- The agenda is left alone. -/
theorem setEngine (h : w.Withholds r w') {f : Engine → Engine}
    (hf : (f (w'.engine r.mw)).agenda = (w'.engine r.mw).agenda) :
    w.Withholds r (w'.setEngine j f) := by
  refine h.trans (.of_eq ?_)
  rcases engine_setEngine_or w' r.mw j f with he | ⟨-, -, he⟩
  · rw [he]
  · rw [he, hf]

theorem setTask (h : w.Withholds r w') (t : TaskId) (f : TaskNode → TaskNode) :
    w.Withholds r (w'.setTask j t f) := h.setEngine rfl

theorem insertWait (h : w.Withholds r w') (x : EffectId) (wait : Wait) :
    w.Withholds r (w'.insertWait j x wait) := h.setEngine rfl

theorem queue (h : w.Withholds r w') (e : Errand) : w.Withholds r (w'.queue j e) := by
  have h₁ : w.Withholds r (w'.setEngine j fun g => { g with agenda := g.agenda.queue e }) := by
    refine h.trans (.of_eq ?_)
    rcases engine_setEngine_or w' r.mw j fun g => { g with agenda := g.agenda.queue e } with
      he | ⟨-, -, he⟩
    · rw [he]
    · rw [he]
      rfl
  exact h₁.record _

theorem schedule (h : w.Withholds r w') {y : Reaction}
    (hy : ¬ (Instr.schedule j y).Settles r) : w.Withholds r (w'.schedule j y) := by
  rcases engine_setEngine_or w' r.mw j fun g => { g with agenda := g.agenda.schedule y } with
    he | ⟨hj, -, he⟩
  · exact h.trans (.of_eq (congrArg (fun g : Engine => (g.agenda.fresh, g.agenda.stack)) he))
  · have he : (w'.schedule j y).engine r.mw = _ := he
    refine h.trans ⟨[y], by rw [he]; rfl, by rw [he]; rfl, fun signal hm => ?_⟩
    rw [← List.mem_singleton.1 hm, ← hj] at hy
    exact hy rfl

theorem foldl_schedule {α : Type} (h : w.Withholds r w') {f : α → Reaction} {as : List α}
    (hf : ∀ a ∈ as, ¬ (Instr.schedule j (f a)).Settles r) :
    w.Withholds r (as.foldl (fun w a => w.schedule j (f a)) w') := by
  induction as generalizing w' with
  | nil => exact h
  | cons a as ih =>
    exact ih (h.schedule (hf a List.mem_cons_self)) fun b hb => hf b (List.mem_cons_of_mem _ hb)

theorem createTask (h : w.Withholds r w') (saga : Saga) (parent : Option TaskId) (detached : Bool) :
    w.Withholds r (w'.createTask j saga parent detached) := by
  have h₁ : w.Withholds r (w'.setEngine j fun e =>
      { e with
        nextTask := (w'.engine j).nextTask + 1
        tasks := e.tasks.insert (w'.engine j).nextTask
          { name := saga.name, parent, detached,
            body := some (saga.program.start (w'.engine j).nextTask) } }) := h.setEngine rfl
  unfold World.createTask
  cases parent with
  | none => exact h₁.record _
  | some p =>
    cases detached with
    | true => exact h₁.record _
    | false => exact (h₁.setTask p _).record _

theorem readState (h : w.Withholds r w') : w.Withholds r (w'.readState j).2 := by
  unfold World.readState
  split
  · exact h
  · simp only
    split
    · exact h
    · exact h.record _

end Withholds

/-! ## Those who are not registered are not told -/

/-- Who gets a value that is put was a taker. -/
theorem taker_of_delivered {c : ChannelId} {channel : Channel Sink} {v : Value} {t : Taker Sink}
    (h : (w.putChannel c channel v).1 = .delivered t) : t ∈ channel.takers := by
  rw [Config.Wired.putChannel_fst] at h
  unfold Channel.put at h
  split at h
  · cases h
  · split at h
    · rename_i u rest hr
      cases h
      exact (Channel.removeTaker_perm hr).subset List.mem_cons_self
    · split at h <;> cases h

/-- What an instruction comes to settles an effect neither now nor later. -/
structure Mum (r : EffectRef) (w : World) (next : Config) : Prop where
  withholds : w.Withholds r next.world
  mute : ∀ y ∈ next.todo, ¬ y.Settles r

end World

/-- An instruction of a kind that settles effects. -/
def Instr.pays : Instr → Bool
  | .perform .. | .schedule .. | .emit _ _ (.effect _) | .forwarded _ _ (.effect _)
  | .deliver .. => true
  | _ => false

/-- A frame settles effects of its own middleware. -/
theorem Instr.mw_of_settles {x : Instr} {r : EffectRef} {i : MiddlewareId} (ho : x.owner? = some i)
    (h : x.Settles r) : r.mw = i := by
  cases x with
  | perform j job =>
    cases ho
    cases job with
    | reaction y =>
      cases y with
      | settle => exact congrArg EffectRef.mw h
      | _ => exact h.elim
    | errand e =>
      obtain ⟨y, -, rfl⟩ := h
      rfl
  | schedule j y =>
    cases ho
    cases y with
    | settle => exact congrArg EffectRef.mw h
    | _ => exact h.elim
  | emit j a sender | forwarded j a sender =>
    cases ho
    cases sender with
    | effect => exact congrArg EffectRef.mw h
    | _ => exact h.elim
  | deliver => cases ho
  | _ => exact h.elim

theorem Instr.not_settles_of_pays {x : Instr} {r : EffectRef} (h : x.pays = false) :
    ¬ x.Settles r := by
  cases x with
  | perform | schedule | deliver => cases h
  | emit _ _ sender | forwarded _ _ sender =>
    cases sender with
    | effect => cases h
    | _ => exact id
  | _ => exact id

/-- An instruction that may settle effects of a middleware that are registered in some ways. -/
def Instr.Stirs (K : WaitKind → Prop) (i : MiddlewareId) (w : World) : Instr → Prop
  | .perform _ (.errand (.put c _ _)) => ∃ id, K (.take (.channel c) id)
  | .perform j (.errand .finish) | .forwarded j _ _ | .op _ _ (.finish j) =>
    j = i ∧ ∃ id, K (.take .bus id)
  | .abortDone turn _ _ | .conclude turn | .cancelOne turn .. => turn.mw = i ∧ K (.join turn.task)
  | .cascade j (.complete t) => j = i ∧ K (.join t)
  | .op _ _ (.put name _) | .op _ _ (.close name) =>
    ∃ c id, w.channelNames.get? name = some c ∧ K (.take (.channel c) id)
  | .op _ _ (.resolve ..) | .op _ _ (.reject ..) | .moveClock _ => ∃ d, K (.call d)
  | _ => False

/-- An instruction that puts a value on a channel of some kind, or closes one. -/
def Instr.Serves (C : ChannelId → Prop) (w : World) : Instr → Prop
  | .perform _ (.errand (.put c _ _)) => C c
  | .op _ _ (.put name _) | .op _ _ (.close name) => ∃ c, w.channelNames.get? name = some c ∧ C c
  | _ => False

namespace World

variable {w w' : World} {r : EffectRef} {i j : MiddlewareId} {K : WaitKind → Prop}

theorem Mum.of_idle (h : w.Withholds r w') {G : List Instr}
    (hG : (G.all fun y => !y.pays) = true) : w.Mum r ⟨G, w'⟩ :=
  ⟨h, fun y hy => Instr.not_settles_of_pays (by simpa using List.all_eq_true.1 hG y hy)⟩

theorem Mum.followedBy {c : Config} (h : w.Mum r c) {after : List Instr}
    (ha : (after.all fun y => !y.pays) = true) : w.Mum r (c.followedBy after) := by
  refine ⟨h.withholds, fun y hy => ?_⟩
  rcases List.mem_append.1 hy with hy | hy
  · exact h.mute y hy
  · exact Instr.not_settles_of_pays (by simpa using List.all_eq_true.1 ha y hy)

theorem Mum.after {c : Config} (h : w'.Mum r c) (hw : w.Withholds r w') : w.Mum r c :=
  ⟨hw.trans h.withholds, h.mute⟩

/-- Nothing is registered for an effect, but in some ways. -/
def Unlisted (w : World) (K : WaitKind → Prop) (r : EffectRef) : Prop :=
  ∀ k, w.Registered r k → K k

namespace Unlisted

theorem of_silent (h : ∀ k, ¬ w.Registered r k) : w.Unlisted K r := fun k hk => (h k hk).elim

theorem shrinks (h : w.Unlisted K r) (hs : w.Shrinks w') : w'.Unlisted K r := fun k hk =>
  h k (hs.registered hk)

theorem calm (h : w.Unlisted K r) (hc : w.Calm w') : w'.Unlisted K r := h.shrinks hc.shrinks

theorem not_bus (h : w.Unlisted K r) (hK : ¬ ∃ id, K (.take .bus id)) {t : BusTaker}
    (ht : t ∈ (w.engine r.mw).bus.takers) : t.effect ≠ r.effect := fun he =>
  hK ⟨t.id, h _ (.bus ht he)⟩

theorem not_joiner (h : w.Unlisted K r) {t : TaskId} (hK : ¬ K (.join t)) :
    r.effect ∉ w.joiners r.mw t := fun hj => hK (h _ (.join hj))

theorem not_listener (h : w.Unlisted K r) {d : DeferredId} (hK : ¬ K (.call d))
    {deferred : Deferred EffectRef} (hd : w.deferreds.get? d = some deferred) :
    deferred.listener ≠ some r := fun hr => hK (h _ (.call hd hr))

theorem not_deliver (h : w.Unlisted K r) {c : ChannelId} (hK : ¬ ∃ id, K (.take (.channel c) id))
    {channel : Channel Sink} (hc : w.channels.get? c = some channel) {t : Taker Sink}
    (ht : t ∈ channel.takers) (d : Delivery) : ¬ (Instr.deliver t.sink d).Settles r := by
  intro hs
  cases hsink : t.sink with
  | effect target =>
    rw [hsink] at hs
    obtain rfl : r = target := hs
    exact hK ⟨t.id, h _ (.channel hc ht hsink)⟩
  | script =>
    rw [hsink] at hs
    exact hs

end Unlisted

/-- The takers of the bus are told. -/
theorem Withholds.tellTakers (h : w.Withholds r w') (hl : w.Unlisted K r)
    (hK : ¬ (j = r.mw ∧ ∃ id, K (.take .bus id))) {ts : List BusTaker}
    (hts : ∀ t ∈ ts, t ∈ (w.engine j).bus.takers) (signal : Signal) :
    w.Withholds r (ts.foldl (fun w t => w.schedule j (.settle t.effect signal)) w') := by
  refine h.foldl_schedule fun t ht he => ?_
  obtain rfl : r = ⟨j, t.effect⟩ := he
  exact hl.not_bus (fun hid => hK ⟨rfl, hid⟩) (hts t ht) rfl

theorem Withholds.endBus (hl : w.Unlisted K r) (hK : ¬ (j = r.mw ∧ ∃ id, K (.take .bus id))) :
    w.Withholds r (w.endBus j) :=
  (((refl r w).setEngine rfl).record _).tellTakers hl hK (fun _ ht => ht) _

theorem Withholds.broadcast (hl : w.Unlisted K r) (hK : ¬ (j = r.mw ∧ ∃ id, K (.take .bus id)))
    (a : Action) : w.Withholds r (w.broadcast j a) := by
  refine (((refl r w).setEngine rfl).untouched (untouched_enterNotes _)).tellTakers hl hK
    (fun t ht => ?_) _
  exact (Bus.select_perm _ _ _).subset (List.mem_append_left _ ht)

theorem Withholds.finalize (hl : w.Unlisted K r) {t : TaskId} (hK : ¬ (j = r.mw ∧ K (.join t)))
    (outcome : Outcome) : w.Withholds r (w.finalize j t outcome).2 := by
  cases hn : w.task? j t with
  | none =>
    rw [finalize_of_absent hn]
    exact refl r w
  | some n =>
    have h : w.Withholds r (w.announce j t n outcome) := by
      refine ((((refl r w).setEngine rfl).untouched (untouched_wakeWatches _)).foldl_schedule
        fun x hx he => ?_).record _
      obtain rfl : r = ⟨j, x⟩ := he
      exact hl.not_joiner (t := t) (fun ht => hK ⟨rfl, ht⟩) (by simpa [joiners, hn] using hx)
    rw [finalize_eq hn]
    simp only
    split
    · split
      · exact h
      · split
        · exact h
        · split
          · exact h.setTask ..
          · split <;> exact h.setTask ..
    · split
      · exact h.record _
      · exact h

/-! ## What each instruction comes to -/

namespace Mum

variable {turn : Turn} {b : Body} {nests : List Nest} {x : EffectId}

theorem nil (h : w.Withholds r w') : w.Mum r ⟨[], w'⟩ := .of_idle h rfl

theorem one (h : w.Withholds r w') {y : Instr} (hy : ¬ y.Settles r) : w.Mum r ⟨[y], w'⟩ :=
  ⟨h, fun z hz => by rwa [List.mem_singleton.1 hz]⟩

theorem enterDriver (h : w.Withholds r w') {work : List Instr}
    (hw : (work.all fun y => !y.pays) = true) : w.Mum r (w'.enterDriver j work) := by
  unfold World.enterDriver
  split
  · exact .of_idle h hw
  · refine .of_idle (h.setEngine rfl) ?_
    rw [List.all_append, hw]
    rfl

/-- Another effect is settled from outside its driver. -/
theorem notify {target : EffectRef} (ht : r ≠ target) (signal : Signal) :
    w.Mum r (w.notify target signal) := by
  unfold World.notify
  split
  · exact nil (.refl r w)
  · exact enterDriver ((Withholds.refl r w).schedule (y := .settle _ _) ht) rfl

/-! ### Errands -/

theorem putForEffect (hl : w.Unlisted K r) (hx : r ≠ ⟨j, x⟩) {c : ChannelId}
    (hK : ¬ ∃ id, K (.take (.channel c) id)) (v : Value) : w.Mum r (w.putForEffect j c v x) := by
  unfold World.putForEffect
  split
  · exact nil ((Withholds.refl r w).schedule hx)
  · rename_i channel hc
    have h : w.Withholds r (w.putChannel c channel v).2 :=
      (Withholds.refl r w).untouched (untouched_putChannel c channel v)
    simp only
    split
    · exact nil (h.schedule hx)
    · rename_i t ht
      refine ⟨h, fun y hy => ?_⟩
      rcases List.mem_cons.1 hy with rfl | hy
      · exact hl.not_deliver hK hc (taker_of_delivered ht) _
      · rw [List.mem_singleton.1 hy]
        exact hx
    · exact nil (h.schedule hx)

theorem execErrand (hl : w.Unlisted K r) {e : Errand}
    (he : ¬ (Instr.perform j (.errand e)).Settles r)
    (hK : ¬ (Instr.perform j (.errand e)).Stirs K r.mw w) :
    w.Mum r (w.execPerform j (.errand e)) := by
  have hx : ∀ x, e.reply? = some x → r ≠ ⟨j, x⟩ := fun x hx hr => he ⟨x, hx, hr⟩
  cases e with
  | dispatch a reply =>
    refine one ((Withholds.refl r w).record _) ?_
    cases reply with
    | none => exact id
    | some x => exact hx x rfl
  | put c v x =>
    refine after (putForEffect (K := K) ?_ (hx x rfl) hK v) ((Withholds.refl r w).record _)
    exact hl.calm (.record _)
  | finish =>
    refine nil (((Withholds.refl r w).record _).trans (.endBus (K := K) ?_ hK))
    exact hl.calm (.record _)

theorem finishEmit (h : w.Withholds r w') {a : Action} {sender : Sender}
    (hs : ¬ (Instr.forwarded j a sender).Settles r) (result : Except Fault Unit) :
    w.Mum r (w'.finishEmit j a sender result) := by
  cases sender with
  | effect x => exact nil (h.schedule hs)
  | caller site => exact of_idle h rfl
  | nobody =>
    cases result with
    | ok => exact nil h
    | error f => exact nil (h.record _)

theorem execForwarded (hl : w.Unlisted K r) {a : Action} {sender : Sender}
    (hs : ¬ (Instr.forwarded j a sender).Settles r)
    (hK : ¬ (Instr.forwarded j a sender).Stirs K r.mw w) :
    w.Mum r (w.execForwarded j a sender) := by
  unfold World.execForwarded
  split
  · exact nil (.refl r w)
  · split
    · exact finishEmit (.refl r w) hs _
    · refine finishEmit
        (((Withholds.refl r w).untouched (untouched_reduceHost a)).trans (.broadcast (K := K) ?_ hK a)) hs _
      exact hl.calm (.reduceHost a)

/-! ### The start of effects -/

theorem immediate (h : w.Withholds r w') (signal : Signal) :
    w.Mum r (w'.immediate turn b nests x signal) := of_idle (h.record _) rfl

theorem suspend (h : w.Withholds r w') (kind : WaitKind) :
    w.Mum r (w'.suspend turn b nests x kind) := of_idle (h.insertWait ..) rfl

theorem awaitDeferred (h : w.Withholds r w') (hx : r ≠ ⟨turn.mw, x⟩) (d : DeferredId) :
    w.Mum r (w'.awaitDeferred turn b nests x d) := by
  have h₁ : w.Withholds r (w'.suspend turn b nests x (.call d)).world := h.insertWait ..
  unfold World.awaitDeferred
  simp only
  split
  · exact of_idle h₁ rfl
  · split
    · refine of_idle (h₁.trans (.of_eq ?_)) ?_ <;> rfl
    · refine of_idle (Withholds.schedule (h₁.trans (.of_eq ?_)) (y := .settle _ _) hx) ?_ <;> rfl

theorem startTake (h : w.Withholds r w') (source : Source) (p : Pattern) :
    w.Mum r (w'.startTake turn b nests x source p) := by
  unfold World.startTake
  cases source with
  | bus =>
    simp only
    split
    · exact immediate (h.setEngine rfl) _
    · exact suspend (h.setEngine rfl) _
  | channel c =>
    simp only
    split
    · exact immediate h _
    · split
      · exact immediate (h.untouched (untouched_takeChannel ..)) _
      · exact suspend (h.untouched (untouched_takeChannel ..)) _

theorem startCall (h : w.Withholds r w') (hx : r ≠ ⟨turn.mw, x⟩) (routine : Routine) :
    w.Mum r (w'.startCall turn b nests x routine) := by
  unfold World.startCall
  cases routine with
  | sleep ms => exact awaitDeferred (h.untouched (untouched_addTimer ..)) hx _
  | scripted c env =>
    refine of_idle ?_ rfl
    cases c.label with
    | none => exact h
    | some name => exact h.untouched (untouched_enter (e := .call name) trivial)

theorem startJoin (h : w.Withholds r w') (target : TaskRef) :
    w.Mum r (w'.startJoin turn b nests x target) := by
  unfold World.startJoin
  split
  · exact immediate h _
  · split
    · exact immediate h _
    · split
      · exact immediate h _
      · split
        · exact immediate h _
        · exact suspend (h.setTask ..) _

theorem startRace (h : w.Withholds r w') (keys : Option (List String)) (members : List Effect) :
    w.Mum r (w'.startRace turn b nests x keys members) := by
  cases members with
  | nil => exact immediate h _
  | cons => exact of_idle (h.insertWait ..) rfl

theorem startAll (h : w.Withholds r w') (members : List Effect) :
    w.Mum r (w'.startAll turn b nests x members) := by
  cases members with
  | nil => exact immediate h _
  | cons => exact of_idle (h.insertWait ..) rfl

theorem startCancel (h : w.Withholds r w') (target : Option TaskRef) :
    w.Mum r (w'.startCancel turn b nests x target) := by
  unfold World.startCancel
  split
  · exact of_idle h rfl
  · split
    · exact immediate h _
    · exact of_idle h rfl

theorem execTrigger {e : Effect} (hx : ∀ name routine, e = .call name routine →
    r ≠ ⟨turn.mw, (w.engine turn.mw).nextEffect⟩) : w.Mum r (w.execTrigger turn b nests e) := by
  unfold World.execTrigger
  split
  · exact of_idle (.refl r w) rfl
  · have h : w.Withholds r ((w.setEngine turn.mw fun g =>
        { g with nextEffect := (w.engine turn.mw).nextEffect + 1 }).record turn.mw
          (.triggered turn.task (w.engine turn.mw).nextEffect (Nest.link nests).parent? e)) :=
      ((Withholds.refl r w).setEngine rfl).record _
    cases e with
    | take source p => exact startTake h source p
    | put target => exact of_idle ((h.insertWait ..).queue _) rfl
    | call name routine => exact startCall h (hx name routine rfl) routine
    | fork saga detached =>
      exact immediate ((h.createTask ..).schedule (y := .start _) id) _
    | join target => exact startJoin h target
    | race members =>
      simp only [World.startKeyedRace]
      split
      · exact immediate h _
      · exact startRace h _ _
    | racePositional members => exact startRace h _ _
    | all members => exact startAll h _
    | cancel target => exact startCancel h target
    | select key => exact immediate h.readState _

theorem execAnswer (hx : r ≠ ⟨turn.mw, x⟩) (result : AnswerExpr) (env : Env) :
    w.Mum r (w.execAnswer turn b nests x result env) := by
  have h : w.Withholds r w := .refl r w
  cases result with
  | value | fault => exact immediate h _
  | deferred name =>
    simp only [World.execAnswer]
    split
    · exact awaitDeferred h hx _
    · exact immediate h _
  | resolved | rejected => exact awaitDeferred (h.untouched (untouched_addDeferred _)) hx _
  | timer => exact awaitDeferred (h.untouched (untouched_addTimer ..)) hx _

/-! ### The end of tasks -/

theorem cascadeOn {c : Option Cascade × World} (h : w.Withholds r c.2) :
    w.Mum r (World.cascadeOn j c) := by
  unfold World.cascadeOn
  split <;> exact of_idle h rfl

theorem execAbortDone (hl : w.Unlisted K r) (hK : ¬ (turn.mw = r.mw ∧ K (.join turn.task)))
    (f : Fault) (wasCurrent : Bool) : w.Mum r (w.execAbortDone turn f wasCurrent) := by
  unfold World.execAbortDone
  split
  · exact nil ((Withholds.refl r w).setEngine rfl)
  · exact cascadeOn (.finalize hl hK _)

theorem execConclude (hl : w.Unlisted K r) (hK : ¬ (turn.mw = r.mw ∧ K (.join turn.task))) :
    w.Mum r (w.execConclude turn) := by
  refine cascadeOn (Withholds.trans ?_ (.finalize (K := K) ?_ hK _))
  · exact (Withholds.refl r w).setEngine rfl
  · exact hl.calm (.setEngine' rfl rfl rfl Iff.rfl)

theorem execCascade (hl : w.Unlisted K r) {c : Cascade} (hK : ¬ (Instr.cascade j c).Stirs K r.mw w) :
    w.Mum r (w.execCascade j c) := by
  unfold World.execCascade
  split
  · exact of_idle (.refl r w) rfl
  · split
    · exact nil (.refl r w)
    · split
      · exact nil (.refl r w)
      · split
        · exact nil (.refl r w)
        · refine cascadeOn (Withholds.trans ?_ (.finalize (K := K) ?_ hK _))
          · exact (Withholds.refl r w).setTask ..
          · exact hl.calm (.setTask fun _ => rfl)

theorem execCancelOne (hl : w.Unlisted K r) (hK : ¬ (turn.mw = r.mw ∧ K (.join turn.task)))
    (wasCurrent : Bool) (rest : List TaskId) (cascades : List Cascade) : w.Mum r (w.execCancelOne turn wasCurrent rest cascades) := by
  unfold World.execCancelOne
  split
  · exact of_idle ((Withholds.refl r w).setEngine rfl) rfl
  · exact of_idle (.finalize hl hK _) rfl

/-! ### User code -/

theorem execDeliver {sink : Sink} {d : Delivery} (hs : ¬ (Instr.deliver sink d).Settles r) :
    w.Mum r (w.execDeliver sink d) := by
  cases sink with
  | effect target => exact notify hs _
  | script tag next env =>
    exact of_idle ((Withholds.refl r w).untouched (untouched_enter (e := .taker tag d) trivial)) rfl

theorem settleDeferred (hl : w.Unlisted K r) {d : DeferredId} (hK : ¬ K (.call d)) (a : Answer) :
    w.Mum r (w.settleDeferred d a).2 := by
  unfold World.settleDeferred
  split
  · exact nil (.refl r w)
  · rename_i deferred hd
    simp only
    split
    · exact nil (.of_eq rfl)
    · rename_i target ht
      refine after (notify ?_ _) (.of_eq rfl)
      rintro rfl
      unfold Deferred.settle at ht
      split at ht
      · cases ht
      · exact hl.not_listener hK hd ht

theorem execMoveClock (hl : w.Unlisted K r) (hK : ¬ ∃ d, K (.call d)) (target : Nat) :
    w.Mum r (w.execMoveClock target) := by
  unfold World.execMoveClock
  split
  · exact nil (.of_eq rfl)
  · rename_i t ht
    have hw : w.Withholds r
        { w with now := t.deadline, timers := w.timers.filter fun u => u.id ≠ t.id } := .of_eq rfl
    refine followedBy (after (settleDeferred (K := K) (fun k hk => hl k ?_)
      (fun hd => hK ⟨_, hd⟩) _) hw) (by rfl)
    exact (Config.Wired.registered_congr (by rfl) (by rfl) (by rfl)).1 hk

theorem opSettle (hl : w.Unlisted K r) (hK : ¬ ∃ d, K (.call d)) (site : Site) (o : Op)
    (name : String) (a : Answer) : w.Mum r (w.opSettle site o name a) := by
  unfold World.opSettle
  split
  · exact of_idle (.refl r w) rfl
  · exact followedBy (settleDeferred hl (fun hd => hK ⟨_, hd⟩) a) rfl

theorem opRun (site : Site) (env : Env) (saga : SagaExpr) (label : Option String) :
    w.Mum r (w.opRun site env j saga label) :=
  followedBy (enterDriver (((Withholds.refl r w).createTask ..).schedule (y := .start _) id) rfl) rfl

theorem opDispatch (site : Site) (a : Action) : w.Mum r (w.opDispatch site j a) := by
  unfold World.opDispatch
  split
  · exact of_idle ((Withholds.refl r w).queue _) rfl
  · exact of_idle ((Withholds.refl r w).setEngine rfl) rfl

theorem opFinish (hl : w.Unlisted K r) (hK : ¬ (j = r.mw ∧ ∃ id, K (.take .bus id)))
    (site : Site) : w.Mum r (w.opFinish site j) := by
  unfold World.opFinish
  split
  · exact of_idle ((Withholds.refl r w).queue _) rfl
  · exact followedBy (enterDriver (.endBus hl hK) rfl) rfl

theorem opCancel (site : Site) (t : TaskRef) : w.Mum r (w.opCancel site t) := by
  unfold World.opCancel
  split
  · exact of_idle (.refl r w) rfl
  · exact followedBy (enterDriver (.refl r w) rfl) rfl

theorem opPut (hl : w.Unlisted K r) (site : Site) {c : ChannelId}
    (hK : ¬ ∃ id, K (.take (.channel c) id)) {channel : Channel Sink}
    (hc : w.channels.get? c = some channel) (v : Value) : w.Mum r (w.opPut site c channel v) := by
  have h : w.Withholds r (w.putChannel c channel v).2 :=
    (Withholds.refl r w).untouched (untouched_putChannel c channel v)
  unfold World.opPut
  simp only
  split
  · exact of_idle h rfl
  · rename_i t ht
    refine ⟨h, fun y hy => ?_⟩
    rcases List.mem_cons.1 hy with rfl | hy
    · exact hl.not_deliver hK hc (taker_of_delivered ht) _
    · rw [List.mem_singleton.1 hy]
      exact id
  · exact of_idle h rfl

theorem opTake (site : Site) (env : Env) (c : ChannelId) (channel : Channel Sink) (p : Pattern)
    (tag : String) (next : List Op) : w.Mum r (w.opTake site env c channel p tag next) := by
  have h : w.Withholds r (w.takeChannel c channel p (.script tag next env)).2 :=
    (Withholds.refl r w).untouched (untouched_takeChannel ..)
  unfold World.opTake
  simp only
  split
  · refine ⟨h, fun y hy => ?_⟩
    rcases List.mem_cons.1 hy with rfl | hy
    · exact id
    · rw [List.mem_singleton.1 hy]
      exact id
  · exact of_idle h rfl

theorem opClose (hl : w.Unlisted K r) (site : Site) {c : ChannelId}
    (hK : ¬ ∃ id, K (.take (.channel c) id)) {channel : Channel Sink}
    (hc : w.channels.get? c = some channel) : w.Mum r (w.opClose site c channel) := by
  refine ⟨.of_eq rfl, fun y hy => ?_⟩
  rcases List.mem_append.1 hy with hy | hy
  · obtain ⟨t, ht, rfl⟩ := List.mem_map.1 hy
    refine hl.not_deliver hK hc ?_ _
    unfold Channel.close at ht
    split at ht
    · cases ht
    · exact ht
  · rw [List.mem_singleton.1 hy]
    exact id

theorem withMiddleware {site : Site} {o : Op} {f : Middleware → Config}
    (hf : ∀ m, w.Mum r (f m)) : w.Mum r (w.withMiddleware site o j f) := by
  unfold World.withMiddleware
  split
  · exact of_idle (.refl r w) rfl
  · exact hf _

theorem withTask {site : Site} {env : Env} {o : Op} {x : Expr} {f : TaskRef → Config}
    (hf : ∀ t, w.Mum r (f t)) : w.Mum r (w.withTask site env o x f) := by
  unfold World.withTask
  split
  · exact hf _
  · exact of_idle (.refl r w) rfl

theorem withChannel {site : Site} {o : Op} {name : String} {f : ChannelId → Channel Sink → Config}
    (hf : ∀ c channel, w.channelNames.get? name = some c → w.channels.get? c = some channel →
      w.Mum r (f c channel)) : w.Mum r (w.withChannel site o name f) := by
  unfold World.withChannel
  split
  · exact of_idle (.refl r w) rfl
  · split
    · exact of_idle (.refl r w) rfl
    · exact hf _ _ ‹_› ‹_›

/-- Another middleware is dropped. -/
theorem opDrop {site : Site} (hj : site = .outside → j ≠ r.mw) : w.Mum r (w.opDrop site j) := by
  cases site with
  | nested => exact of_idle (.refl r w) rfl
  | outside =>
    have hne := hj rfl
    cases hm : w.living? j with
    | none =>
      simp only [World.opDrop, hm]
      exact of_idle (.refl r w) rfl
    | some m =>
      simp only [World.opDrop, hm]
      refine of_idle (.of_eq ?_) ?_
      · rw [engine, engine, Table.get?_insert, if_neg (Ne.symm hne)]
      · refine List.all_eq_true.2 fun y hy => ?_
        rcases List.mem_append.1 hy with hy | hy
        · obtain ⟨e, -, hy⟩ := List.mem_flatMap.1 hy
          obtain ⟨b, -, rfl⟩ := Option.map_eq_some_iff.1 (Option.mem_toList.1 hy)
          rfl
        · rw [List.mem_singleton.1 hy]
          rfl

theorem opAdvance (site : Site) (ms : Nat) : w.Mum r (w.opAdvance site ms) := by
  unfold World.opAdvance
  split <;> exact of_idle (.refl r w) rfl

/-- User code, or a scenario, does something else than to settle effects. -/
theorem runOp (hl : w.Unlisted K r) {site : Site} {env : Env} {o : Op}
    (hK : ¬ (Instr.op site env o).Stirs K r.mw w) (hd : ∀ i, site = .outside → o = .drop i → i ≠ r.mw) :
    w.Mum r (w.runOp site env o) := by
  have h : w.Withholds r w := .refl r w
  cases o with
  | run i saga label => exact withMiddleware fun _ => opRun ..
  | dispatch i a => exact withMiddleware fun _ => opDispatch ..
  | finish i => exact withMiddleware fun _ => opFinish hl hK _
  | state i => exact withMiddleware fun _ => of_idle h.readState rfl
  | live | settings => exact withMiddleware fun _ => of_idle h rfl
  | cancel x => exact withTask fun t => opCancel _ t
  | inspect x => exact withTask fun t => of_idle h rfl
  | watch x tag => exact withTask fun t => of_idle (h.untouched (Bears.untouched_opWatch t tag)) rfl
  | put name x =>
    exact withChannel fun c channel hn hc => opPut hl _ (fun ⟨id, hid⟩ => hK ⟨c, id, hn, hid⟩) hc _
  | take name p tag next => exact withChannel fun c channel _ _ => opTake ..
  | close name =>
    exact withChannel fun c channel hn hc => opClose hl _ (fun ⟨id, hid⟩ => hK ⟨c, id, hn, hid⟩) hc
  | showChannel name => exact withChannel fun c channel _ _ => of_idle h rfl
  | drop i => exact opDrop fun hs => hd i hs rfl
  | advance ms => exact opAdvance site ms
  | untake tag => exact of_idle (h.untouched (Bears.untouched_opUntake tag)) rfl
  | resolve name x => exact opSettle hl hK _ _ name _
  | reject name f => exact opSettle hl hK _ _ name _
  | showDeferred name =>
    simp only [World.runOp]
    split <;> exact of_idle h rfl
  | log tag x => exact of_idle (h.untouched (untouched_enter (e := .log tag _) trivial)) rfl
  | _ => exact of_idle h rfl

end Mum

end World

/-! ## Every step -/

section

variable {w : World} {c : Config} {x : Instr} {i : MiddlewareId}

theorem World.Quiet.idle (h : w.Quiet c) : (c.todo.all fun y => !y.pays) = true := by
  refine List.all_eq_true.2 fun y hy => ?_
  have hp := List.all_eq_true.1 h.mute y hy
  cases y with
  | perform | schedule | emit | forwarded | deliver => cases hp
  | _ => rfl

/-- An instruction that is told to be carried out by nobody but itself. -/
def Instr.hands : Instr → Bool
  | .emit .. | .deliver .. | .op .. | .moveClock _ => true
  | x => x.tells

theorem World.idle_begun {turn : Turn} {b : Body} {nests : List Nest} (start : Start) :
    ((w.execBegun turn b nests start).todo.all fun y => !y.pays) = true := by
  have hrace : ∀ {w : World} {x slot rest} {nests : List Nest},
      ((w.nextOfRace turn b x slot rest nests).todo.all fun y => !y.pays) = true := by
    intro w x slot rest nests
    cases rest <;> rfl
  have hall : ∀ {w : World} {x slot rest} {nests : List Nest},
      ((w.nextOfAll turn b x slot rest nests).todo.all fun y => !y.pays) = true := by
    intro w x slot rest nests
    unfold nextOfAll
    split
    · rfl
    · split <;> rfl
  unfold execBegun
  split
  · unfold resumeBody
    simp only
    repeat' split
    all_goals rfl
  · unfold begunInRace
    split
    · exact hrace
    · rfl
    · split <;> rfl
  · unfold begunInAll
    split
    · exact hall
    · rfl
    · exact hall
    · rfl

theorem World.idle_dropping {turn : Turn} (body : Option Body) :
    ((dropping turn body).all fun y => !y.pays) = true := by
  cases body <;> rfl

theorem Instr.idle_exec (hx : x.hands = false) (hc : x.exec w = some c) :
    (c.todo.all fun y => !y.pays) = true := by
  cases x with
  | drain | schedule | forwarded | trigger | answer | abortDone | conclude | cascade | cancelOne
  | emit | deliver | op | moveClock => cases hx
  | perform i job =>
    cases job with
    | errand => cases hx
    | reaction r =>
      cases hc
      cases r with
      | start t => exact World.Quiet.idle (.beginTurn i t none none)
      | resume t signal => exact World.Quiet.idle (.beginTurn i t none (some signal))
      | settle y signal =>
        simp only [World.execPerform]
        split
        · rfl
        · exact World.Quiet.idle (.beginTurn ..)
  | poll turn b a => cases hc; exact World.Quiet.idle (.execPoll b a)
  | advance turn b m => exact World.Quiet.idle (.execAdvance hc)
  | polled turn b step => cases hc; exact World.Quiet.idle (.execPolled b step)
  | cancelDone turn b nests y =>
    cases hc
    unfold World.execCancelDone
    split <;> rfl
  | begun turn b nests start => cases hc; exact World.idle_begun start
  | leave turn b exit =>
    cases hc
    unfold World.execLeave
    simp only
    split <;> rfl
  | returned turn v =>
    cases hc
    unfold World.execReturned
    repeat' split
    all_goals rfl
  | abort turn f =>
    cases hc
    unfold World.execAbort
    split
    · rfl
    · split
      · rfl
      · simp only [List.all_append, World.idle_dropping, Bool.and_true]
        simp [Instr.pays]
  | cancel i root =>
    cases hc
    unfold World.execCancel
    simp only
    split <;> rfl
  | cancelEach i order cascades =>
    cases hc
    unfold World.execCancelEach
    split
    · simp [Instr.pays]
    · split
      · rfl
      · rw [List.all_append, World.idle_dropping]
        rfl
  | guards gs => cases hc; cases gs <;> rfl
  | ops env os => cases hc; cases os <;> rfl
  | reply site name r => cases hc; cases site <;> rfl
  | dropBody | started | registered => cases hc; rfl

end

namespace Scenario.Visits

variable {s : Scenario} {c : Config} {w : World} {x : Instr} {rest : List Instr} {r : EffectRef}

/-- An instruction that neither settles effects nor hands work on leaves all effects as they are. -/
theorem mum_of_still (h : s.Visits ⟨x :: rest, w⟩) (ha : w.Alive r.mw) {i : MiddlewareId}
    (ho : x.owner? = some i) (ht : x.tells = false) (hh : x.hands = false)
    (hc : x.exec w = some c) : w.Mum r c := by
  refine .of_idle ?_ (Instr.idle_exec hh hc)
  by_cases hi : r.mw = i
  · subst hi
    have hk : x.Knows w.past := by
      rcases h.knows.todo with ⟨o, heq⟩ | hk
      · cases heq
        cases ho
      · exact hk x List.mem_cons_self
    obtain ⟨k', es, hadv, hdoes⟩ := World.Enacts.exec ha.has h.knows.world hk ho hc
    have hk' : (c.world.core r.mw).agenda = k'.agenda := congrArg Core.agenda hadv.core
    have := hdoes.withholds (y := r.effect) ht
    rw [← hk'] at this
    exact this
  · exact (World.Withholds.refl r w).untouched (World.Spares.exec hi ho hc).untouched

/-- Nobody schedules the settlement of an effect that is registered elsewhere at most. -/
theorem mum {K : WaitKind → Prop} (h : s.Visits ⟨x :: rest, w⟩) (ha : w.Alive r.mw)
    (hl : w.Unlisted K r) (hx : ¬ x.Settles r) (hK : ¬ x.Stirs K r.mw w) (hmake : ¬ x.Makes r)
    (hnew : ∀ {i}, x.owner? = some i → r ≠ ⟨i, (w.engine i).nextEffect⟩)
    (hloop : ∀ i, x = .drain i → i ≠ r.mw)
    (hd : ∀ env i, x = .op .outside env (.drop i) → i ≠ r.mw) (hc : x.exec w = some c) :
    w.Mum r c := by
  have other : ∀ {i}, x.owner? = some i → x.tells = false → x.hands = false → w.Mum r c :=
    fun ho ht hh => h.mum_of_still ha ho ht hh hc
  have noted : ∀ {e : Entry} {G : List Instr}, World.IsForeign e →
      (G.all fun y => !y.pays) = true → w.Mum r ⟨G, w.enter e⟩ := fun he hG =>
    .of_idle ((World.Withholds.refl r w).untouched (World.untouched_enter he)) hG
  cases x with
  | drain i =>
    cases hc
    have hi := hloop i rfl
    have hu : World.Untouched r.mw w (w.execDrain i).world :=
      (World.Spares.execDrain (Ne.symm hi)).untouched
    refine ⟨(World.Withholds.refl r w).untouched hu, fun y hy hs => ?_⟩
    unfold World.execDrain at hy
    split at hy
    · cases hy
    · rcases List.mem_cons.1 hy with rfl | hy
      · exact hi (Instr.mw_of_settles rfl hs).symm
      · rw [List.mem_singleton.1 hy] at hs
        exact hs
  | perform i job =>
    cases job with
    | errand e => cases hc; exact .execErrand hl hx hK
    | reaction => exact other rfl rfl rfl
  | schedule i y => cases hc; exact .nil ((World.Withholds.refl r w).schedule hx)
  | emit i a sender =>
    cases hc
    have hf : ¬ (Instr.forwarded i a sender).Settles r := by
      cases sender with
      | effect => exact hx
      | _ => exact id
    unfold World.execEmit
    split
    · exact .nil (.refl r w)
    · simp only
      split
      · exact .one ((World.Withholds.refl r w).record _) hf
      · refine ⟨((World.Withholds.refl r w).record _).untouched
          (World.untouched_enter (e := .host i _ a) trivial), fun y hy => ?_⟩
        rcases List.mem_cons.1 hy with rfl | hy
        · exact id
        · rw [List.mem_singleton.1 hy]
          exact hf
  | forwarded i a sender => cases hc; exact .execForwarded hl hx hK
  | trigger turn b nests e => cases hc; exact .execTrigger fun _ _ _ => hnew rfl
  | answer turn b nests y result env => cases hc; exact .execAnswer hmake result env
  | abortDone turn f wasCurrent => cases hc; exact .execAbortDone hl hK f wasCurrent
  | conclude turn => cases hc; exact .execConclude hl hK
  | cascade i c' => cases hc; exact .execCascade hl hK
  | cancelOne turn wasCurrent order cascades => cases hc; exact .execCancelOne hl hK wasCurrent order cascades
  | deliver sink d => cases hc; exact .execDeliver hx
  | op site env o =>
    obtain ⟨w', hs, rfl⟩ := Option.map_eq_some_iff.1 hc
    have hnames : w'.channelNames = w.channelNames := by
      unfold World.spend at hs
      split at hs <;> cases hs
      rfl
    refine .after (.runOp (hl.calm (.spend hs)) (fun hK' => hK ?_) fun i hsite ho => ?_) ?_
    · cases o with
      | put | close =>
        obtain ⟨d, id, hn, hd'⟩ := hK'
        exact ⟨d, id, hnames ▸ hn, hd'⟩
      | finish | resolve | reject => exact hK'
      | _ => exact hK'.elim
    · subst hsite ho
      exact hd env i rfl
    · exact (World.Withholds.refl r w).untouched (World.Enacts.GoesOn.spend (fun i => .refl i w) hs _)
  | moveClock target => cases hc; exact .execMoveClock hl hK target
  | guards gs =>
    cases hc
    cases gs with
    | nil => exact .nil (.refl r w)
    | cons g gs => exact noted (e := .guard g.name) trivial rfl
  | ops env os => cases hc; cases os <;> exact .of_idle (.refl r w) rfl
  | reply site name y =>
    cases hc
    cases site with
    | outside => refine .of_idle (.of_eq ?_) ?_ <;> rfl
    | nested => exact noted (e := .op name y) trivial rfl
  | dropBody turn b => cases hc; exact .of_idle ((World.Withholds.refl r w).record _) rfl
  | started site label t =>
    cases hc
    refine .of_idle ?_ rfl
    exact (World.Withholds.refl r w).untouched (World.Enacts.GoesOn.register (fun i => .refl i w) label _ _)
  | registered =>
    cases hc
    refine .of_idle (.of_eq ?_) ?_ <;> rfl
  | _ => exact other rfl rfl rfl

/-- Nobody but who owes the settlement of an effect schedules it. -/
theorem withholds (h : s.Visits ⟨x :: rest, w⟩) (ha : w.Alive r.mw)
    (howes : Config.Owes ⟨x :: rest, w⟩ r) (hrest : rest ≠ []) (hx : ¬ x.Settles r)
    (hloop : ∀ i, x = .drain i → i ≠ r.mw) (hc : x.exec w = some c) : w.Mum r c := by
  have hfits := h.wired.fits ha
  have hl : w.Unlisted (fun _ => False) r := .of_silent fun k hk => hfits.silent hk howes
  refine h.mum ha hl hx (fun hK => ?_)
    (fun hm => (hfits.making ⟨x, List.mem_cons_self, hm⟩).2 howes) ?_ hloop (fun env i ho => ?_) hc
  · unfold Instr.Stirs at hK
    split at hK <;> simp at hK
  · rintro i ho rfl
    exact (h.new ho).owes ((Config.owes_cons.1 howes).resolve_left hx)
  · rcases h.knows.todo with ⟨o, heq⟩ | hk
    · exact absurd (List.cons.inj heq).2 hrest
    · have hk := hk x List.mem_cons_self
      rw [ho] at hk
      exact hk.elim

end Scenario.Visits

/-! ## Who owes the answer to a put -/

/-- A reaction settles an effect. -/
def Reaction.settles (x : EffectId) : Reaction → Bool
  | .settle y _ => decide (y = x)
  | _ => false

/-- The settlements of an effect that are on the agenda, the next one first. -/
def World.told (w : World) (r : EffectRef) : List Reaction :=
  (w.pending r.mw).filter (Reaction.settles r.effect)

/-- An instruction that is part of a put: in the end it schedules the settlement of the effect. -/
def Instr.Answers (r : EffectRef) : Instr → Prop
  | .perform i (.errand e) => ∃ x, e.reply? = some x ∧ r = ⟨i, x⟩
  | .schedule i (.settle x _) | .emit i _ (.effect x) | .forwarded i _ (.effect x) => r = ⟨i, x⟩
  | _ => False

/-- A part of a put leaves the rest of it to another one, or schedules the settlement. -/
inductive World.Hands (r : EffectRef) (w : World) (next : Config) : Prop
  | on (user : List Instr) {g : Instr} (todo : next.todo = user ++ [g]) (answers : g.Answers r)
      (mute : ∀ y ∈ user, ¬ y.Settles r) (withholds : w.Withholds r next.world)
  | ended {w₁ : World} {signal : Signal} (todo : next.todo = []) (withholds : w.Withholds r w₁)
      (has : w₁.Has r.mw) (world : next.world = w₁.schedule r.mw (.settle r.effect signal))

section

variable {w w' : World} {r : EffectRef} {i : MiddlewareId} {x : EffectId} {y : Instr} {next : Config}

theorem Reaction.settles_iff {y : Reaction} : y.settles x = true ↔ ∃ signal, y = .settle x signal := by
  cases y with
  | settle z signal => simp [settles]
  | _ => simp [settles]

theorem Reaction.filter_settles {rs : List Reaction} (h : ∀ signal, .settle x signal ∉ rs) :
    rs.filter (Reaction.settles x) = [] := by
  refine List.filter_eq_nil_iff.2 fun y hy hs => ?_
  obtain ⟨signal, rfl⟩ := settles_iff.1 hs
  exact h signal hy

theorem World.Withholds.told (h : w.Withholds r w') : w'.told r = w.told r := by
  obtain ⟨rs, hf, hs, hrs⟩ := h
  simp only [World.told, World.pending, hf, hs, List.filter_append, Reaction.filter_settles hrs,
    List.append_nil]

theorem Instr.Answers.settles (h : y.Answers r) : y.Settles r := by
  cases y with
  | perform j job =>
    cases job with
    | reaction => exact h.elim
    | errand => exact h
  | schedule j z =>
    cases z with
    | settle => exact h
    | _ => exact h.elim
  | emit j a sender | forwarded j a sender =>
    cases sender with
    | effect => exact h
    | _ => exact h.elim
  | _ => exact h.elim

theorem Instr.Answers.not_settlement (h : y.Answers r) (signal : Signal) :
    y ≠ .perform i (.reaction (.settle x signal)) := by
  rintro rfl
  exact h

/-- A put goes on. -/
theorem Instr.Answers.exec (hy : y.Answers r) (hl : w.Unlisted (fun _ => False) r) (ha : w.Alive r.mw)
    (hc : y.exec w = some next) : w.Hands r next := by
  have hw : w.Withholds r w := .refl r w
  have hi := ha.has
  cases y with
  | perform j job =>
    cases job with
    | reaction => exact hy.elim
    | errand e =>
      obtain ⟨x, hx, rfl⟩ := hy
      cases hc
      cases e with
      | finish => cases hx
      | dispatch a reply =>
        cases hx
        exact .on [] rfl rfl (fun y hy => by cases hy) (hw.record _)
      | put c v reply =>
        cases hx
        have h₁ : w.Withholds ⟨j, x⟩ (w.record j (.fetched (.put c v x))) := hw.record _
        have hl₁ := hl.calm (.record (i := j) (.fetched (.put c v x)))
        have hi₁ : (w.record j (.fetched (.put c v x))).Has j := hi
        show w.Hands _ ((w.record j (.fetched (.put c v x))).putForEffect j c v x)
        generalize w.record j (.fetched (.put c v x)) = w₁ at h₁ hl₁ hi₁
        unfold World.putForEffect
        split
        · exact .ended rfl h₁ hi₁ rfl
        · rename_i channel hch
          have hu : World.Untouched j w₁ (w₁.putChannel c channel v).2 :=
            World.untouched_putChannel c channel v
          have h₂ : w.Withholds ⟨j, x⟩ (w₁.putChannel c channel v).2 := h₁.untouched hu
          have hi₂ : (w₁.putChannel c channel v).2.Has j :=
            ((World.Advances.start hi₁).untouched hu).has'
          simp only
          split
          · exact .ended rfl h₂ hi₂ rfl
          · rename_i t ht
            refine .on [_] rfl rfl (fun y hy => ?_) h₂
            rw [List.mem_singleton.1 hy]
            exact hl₁.not_deliver (fun ⟨_, hid⟩ => hid) hch (World.taker_of_delivered ht) _
          · exact .ended rfl h₂ hi₂ rfl
  | schedule j z =>
    cases z with
    | settle x signal =>
      obtain rfl : r = ⟨j, x⟩ := hy
      cases hc
      exact .ended rfl hw hi rfl
    | _ => exact hy.elim
  | emit j a sender =>
    cases sender with
    | effect x =>
      obtain rfl : r = ⟨j, x⟩ := hy
      cases hc
      obtain ⟨m, hm⟩ := hi
      have hm : w.middlewares.get? j = some m := hm
      unfold World.execEmit
      simp only [hm]
      split
      · exact .on [] rfl rfl (fun y hy => by cases hy) (hw.record _)
      · refine .on [_] rfl rfl (fun y hy => ?_) ((hw.record _).untouched
          (World.untouched_enter (e := .host j _ a) trivial))
        rw [List.mem_singleton.1 hy]
        exact id
    | _ => exact hy.elim
  | forwarded j a sender =>
    cases sender with
    | effect x =>
      obtain rfl : r = ⟨j, x⟩ := hy
      cases hc
      obtain ⟨m, hm⟩ := hi
      have hm' : w.middlewares.get? j = some m := hm
      unfold World.execForwarded
      simp only [hm']
      split
      · exact .ended rfl hw ⟨m, hm⟩ rfl
      · have hu : World.Untouched j w (w.reduceHost j a) := World.untouched_reduceHost a
        have hadv := (World.Advances.start ⟨m, hm⟩).untouched hu
        obtain ⟨rs, hadv', -⟩ := hadv.broadcast a
        exact .ended rfl ((hw.untouched hu).trans (.broadcast (hl.calm (.reduceHost a)) (by simp) a)) hadv'.has' rfl
    | _ => exact hy.elim
  | _ => exact hy.elim

end

end SagaMachine
