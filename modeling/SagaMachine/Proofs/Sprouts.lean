import SagaMachine.Proofs.Consistency
import SagaMachine.Proofs.Lifetimes
import SagaMachine.Proofs.Registry
import SagaMachine.Proofs.Teardowns

/-!
# Effects that are left pending

An effect tree whose leaves are all left pending when they are started (`World.Parks`) is left
pending as a whole. What it registers belongs to new effects, and what decides whether a leaf is
left pending stays as it is (`World.Sprouts`), so one leaf never stands in the way of another.

Main statement: `Scenario.Visits.start_parked`.
-/

namespace SagaMachine

/-- The effects of other middlewares, and those of this one below a number. -/
def olderThan (i : MiddlewareId) (n : EffectId) (r : EffectRef) : Bool :=
  decide (r.mw = i → r.effect < n)

/-- What decides whether a take, a call or a join is left pending. -/
@[ext]
structure Situation where
  postures : TaskId → Option Posture
  outcomes : Table TaskId Outcome
  watermark : Option TaskId
  closed : ChannelId → Option Bool
  names : Table String DeferredId
  timers : TimerSupport

/-- The situation of a middleware. -/
def World.situation (w : World) (i : MiddlewareId) : Situation where
  postures t := (w.task? i t).map TaskNode.posture
  outcomes := (w.engine i).outcomes
  watermark := (w.engine i).bus.watermark
  closed c := (w.channels.get? c).map (·.closed)
  names := w.deferredNames
  timers := w.timerSupport

/--
Effects of a middleware were registered from a number on, and nothing else; those that wait for
deferreds are the first to listen there.
-/
structure World.Sprouts (i : MiddlewareId) (n : EffectId) (w w' : World) : Prop where
  registry : w'.registry.keep (olderThan i n) = w.registry.keep (olderThan i n)
  calls : ∀ {y wait d}, n ≤ y → w'.wait? ⟨i, y⟩ = some wait → wait.kind = .call d →
    (w.registry.keep (olderThan i n)).listeners d = none
  situation : w'.situation i = w.situation i
  unsettled : ∀ {d deferred}, w.deferreds.get? d = some deferred →
    ∃ deferred', w'.deferreds.get? d = some deferred' ∧ deferred'.outcome = deferred.outcome
  number : n ≤ (w'.engine i).nextEffect

section

variable {w w₀ w' : World} {i : MiddlewareId} {n x : EffectId} {p : EffectRef → Bool}
  {turn : Turn} {b : Body} {nests : List Nest} {rest : List Instr}

theorem olderThan_eq_false : olderThan i n ⟨i, x⟩ = false ↔ n ≤ x := by
  simp [olderThan]

/-- What holds of an engine before and after a change holds wherever it may have changed. -/
theorem World.of_setEngine {P : Engine → Prop} {f : Engine → Engine} (h : P (w.engine i))
    (hf : P (f (w.engine i))) : P ((w.setEngine i f).engine i) := by
  rcases World.engine_setEngine_or w i i f with he | ⟨-, -, he⟩
  · exact he ▸ h
  · exact he ▸ hf

theorem World.nextEffect_le_setEngine {f : Engine → Engine}
    (hn : (w.engine i).nextEffect ≤ (f (w.engine i)).nextEffect) :
    (w.engine i).nextEffect ≤ ((w.setEngine i f).engine i).nextEffect :=
  World.of_setEngine (P := fun e => (w.engine i).nextEffect ≤ e.nextEffect) (Nat.le_refl _) hn

theorem World.situation_setEngine {f : Engine → Engine}
    (ht : (f (w.engine i)).tasks = (w.engine i).tasks)
    (ho : (f (w.engine i)).outcomes = (w.engine i).outcomes)
    (hm : (f (w.engine i)).bus.watermark = (w.engine i).bus.watermark) :
    (w.setEngine i f).situation i = w.situation i := by
  have he : ((w.setEngine i f).engine i).tasks = (w.engine i).tasks ∧
      ((w.setEngine i f).engine i).outcomes = (w.engine i).outcomes ∧
      ((w.setEngine i f).engine i).bus.watermark = (w.engine i).bus.watermark :=
    World.of_setEngine (P := fun e => e.tasks = (w.engine i).tasks ∧
      e.outcomes = (w.engine i).outcomes ∧ e.bus.watermark = (w.engine i).bus.watermark)
      ⟨rfl, rfl, rfl⟩ ⟨ht, ho, hm⟩
  simp only [World.situation, World.task?, he]
  rfl

namespace World.Sprouts

theorem next (h : w₀.Sprouts i n w)
    (hreg : w'.registry.keep (olderThan i n) = w.registry.keep (olderThan i n))
    (hcalls : ∀ {y wait d}, n ≤ y → w'.wait? ⟨i, y⟩ = some wait → wait.kind = .call d →
      (∃ wait, w.wait? ⟨i, y⟩ = some wait ∧ wait.kind = .call d) ∨
        (w.registry.keep (olderThan i n)).listeners d = none)
    (hsit : w'.situation i = w.situation i)
    (hdef : ∀ {d deferred}, w.deferreds.get? d = some deferred →
      ∃ deferred', w'.deferreds.get? d = some deferred' ∧ deferred'.outcome = deferred.outcome)
    (hnum : (w.engine i).nextEffect ≤ (w'.engine i).nextEffect) : w₀.Sprouts i n w' where
  registry := hreg.trans h.registry
  calls hy hw hk := by
    rcases hcalls hy hw hk with ⟨wait, hw, hk⟩ | hnone
    · exact h.calls hy hw hk
    · rw [← h.registry]
      exact hnone
  situation := hsit.trans h.situation
  unsettled hd := by
    obtain ⟨deferred₁, hd₁, ho₁⟩ := h.unsettled hd
    obtain ⟨deferred₂, hd₂, ho₂⟩ := hdef hd₁
    exact ⟨deferred₂, hd₂, ho₂.trans ho₁⟩
  number := Nat.le_trans h.number hnum

/-- What nobody is registered with does not matter. -/
theorem congr (h : w₀.Sprouts i n w) (hm : w'.middlewares = w.middlewares)
    (hc : w'.channels = w.channels) (hd : w'.deferreds = w.deferreds)
    (hn : w'.deferredNames = w.deferredNames) (ht : w'.timerSupport = w.timerSupport) :
    w₀.Sprouts i n w' := by
  have he : ∀ j, w'.engine j = w.engine j := fun j => by simp only [World.engine, hm]
  refine h.next ?_ (fun _ hw hk => Or.inl ⟨_, ?_, hk⟩) ?_ (fun hdd => ⟨_, hd ▸ hdd, rfl⟩) ?_
  · simp only [World.registry, World.joiners, World.task?, he, hc, hd]
  · simpa only [World.wait?, he] using hw
  · simp only [World.situation, World.task?, he, hc, hn, ht]
  · exact Nat.le_of_eq (by rw [he])

/-- Only effects that are new gain or lose something in the engine. -/
theorem setEngine (h : w₀.Sprouts i n w) {f : Engine → Engine}
    (hw : (f (w.engine i)).waits = (w.engine i).waits)
    (hb : (f (w.engine i)).bus.takers.filter (fun t => olderThan i n ⟨i, t.effect⟩) =
      (w.engine i).bus.takers.filter fun t => olderThan i n ⟨i, t.effect⟩)
    (ht : (f (w.engine i)).tasks = (w.engine i).tasks)
    (ho : (f (w.engine i)).outcomes = (w.engine i).outcomes)
    (hm : (f (w.engine i)).bus.watermark = (w.engine i).bus.watermark)
    (hn : (w.engine i).nextEffect ≤ (f (w.engine i)).nextEffect) :
    w₀.Sprouts i n (w.setEngine i f) := by
  have hreg : (w.setEngine i f).registry.keep (olderThan i n) =
      w.registry.keep (olderThan i n) :=
    World.keep_setEngine (by rw [hw]) hb fun u => by rw [ht]; rfl
  refine h.next hreg (fun _ hwait hk => Or.inl ⟨_, ?_, hk⟩) (World.situation_setEngine ht ho hm)
    (fun hd => ⟨_, hd, rfl⟩) (World.nextEffect_le_setEngine hn)
  have he : ((w.setEngine i f).engine i).waits = (w.engine i).waits :=
    World.of_setEngine (P := fun e => e.waits = (w.engine i).waits) rfl hw
  simpa only [World.wait?, he] using hwait

/-- A new effect is left pending. -/
theorem insertWait (h : w₀.Sprouts i n w) (hx : n ≤ x) {wait : Wait}
    (hcall : ∀ d, wait.kind = .call d → (w.registry.keep (olderThan i n)).listeners d = none) :
    w₀.Sprouts i n (w.insertWait i x wait) := by
  refine h.next (World.keep_insertWait (olderThan_eq_false.2 hx) wait)
    (fun {y wait' d} _ hwait hk => ?_) (World.situation_setEngine rfl rfl rfl)
    (fun hd => ⟨_, hd, rfl⟩) (World.nextEffect_le_setEngine (Nat.le_refl _))
  refine (World.of_setEngine (w := w) (P := fun e => e.waits.get? y = some wait' →
    (∃ wait, w.wait? ⟨i, y⟩ = some wait ∧ wait.kind = .call d) ∨
      (w.registry.keep (olderThan i n)).listeners d = none) ?_ ?_) hwait
  · exact fun hwait => Or.inl ⟨_, hwait, hk⟩
  · intro hwait
    rw [Table.get?_insert] at hwait
    split at hwait
    · cases hwait
      exact Or.inr (hcall d hk)
    · exact Or.inl ⟨_, hwait, hk⟩

/-- The members of a new combinator come in. -/
theorem setMember (h : w₀.Sprouts i n w) (hx : n ≤ x) (slot : Nat) (y : EffectId) :
    w₀.Sprouts i n (w.setMember i x slot y) := by
  refine h.next (World.keep_modifyWait (olderThan_eq_false.2 hx) _)
    (fun {z wait' d} _ hwait hk => Or.inl ?_) (World.situation_setEngine rfl rfl rfl)
    (fun hd => ⟨_, hd, rfl⟩) (World.nextEffect_le_setEngine (Nat.le_refl _))
  refine (World.of_setEngine (w := w) (P := fun e => e.waits.get? z = some wait' →
    ∃ wait, w.wait? ⟨i, z⟩ = some wait ∧ wait.kind = .call d) ?_ ?_) hwait
  · exact fun hwait => ⟨_, hwait, hk⟩
  · intro hwait
    rw [Table.get?_modify] at hwait
    split at hwait
    · rename_i hz
      subst hz
      obtain ⟨wait, hw, rfl⟩ := Option.map_eq_some_iff.1 hwait
      refine ⟨wait, hw, ?_⟩
      cases hkind : wait.kind with
      | race | all => simp [WaitKind.setMember, hkind] at hk
      | call => simpa [WaitKind.setMember, hkind] using hk
      | _ => simp [WaitKind.setMember, hkind] at hk
    · exact ⟨_, hwait, hk⟩

/-- A new effect joins on a task. -/
theorem join (h : w₀.Sprouts i n w) (hx : n ≤ x) (t : TaskId) :
    w₀.Sprouts i n (w.setTask i t fun node => { node with joiners := node.joiners ++ [x] }) := by
  refine h.next (World.keep_setTask fun node _ => ?_) (fun _ hwait hk => Or.inl ⟨_, ?_, hk⟩) ?_
    (fun hd => ⟨_, hd, rfl⟩) (World.nextEffect_le_setEngine (Nat.le_refl _))
  · simp [olderThan_eq_false.2 hx]
  · rw [World.wait?, World.engine_setTask] at hwait
    exact hwait
  · refine Situation.ext (funext fun u => ?_) ?_ ?_ rfl rfl rfl
    · refine World.of_setEngine (w := w) (P := fun e => (e.tasks.get? u).map TaskNode.posture =
        (w.task? i u).map TaskNode.posture) rfl ?_
      rw [Table.get?_modify]
      split
      · rename_i hu
        subst hu
        cases hn : (w.engine i).tasks.get? u <;> simp [World.task?, hn, TaskNode.posture]
      · rfl
    · exact World.of_setEngine (w := w) (P := fun e => e.outcomes = (w.engine i).outcomes) rfl rfl
    · exact World.of_setEngine (w := w)
        (P := fun e => e.bus.watermark = (w.engine i).bus.watermark) rfl rfl

/-- A new effect becomes a taker of a channel. -/
theorem takeChannel (h : w₀.Sprouts i n w) (hx : n ≤ x) {c : ChannelId} {channel : Channel Sink}
    (hc : w.channels.get? c = some channel) (id next : TakerId) (pattern : Pattern) :
    w₀.Sprouts i n { w with channels := w.channels.insert c { channel with
      nextTaker := next, takers := channel.takers ++ [⟨id, pattern, .effect ⟨i, x⟩⟩] } } := by
  refine h.next ?_ (fun _ hwait hk => Or.inl ⟨_, hwait, hk⟩) ?_ (fun hd => ⟨_, hd, rfl⟩)
    (Nat.le_refl _)
  · apply Registry.ext <;> try rfl
    funext d
    simp only [Registry.keep, World.registry, Table.get?_insert]
    split
    · rename_i hd
      subst hd
      simp [hc, Sink.keeps, olderThan_eq_false.2 hx]
    · rfl
  · refine Situation.ext rfl rfl rfl (funext fun d => ?_) rfl rfl
    simp only [World.situation, Table.get?_insert]
    split
    · rename_i hd
      subst hd
      simp [hc]
    · rfl

/-- A new effect listens to a deferred. -/
theorem listen (h : w₀.Sprouts i n w) (hx : n ≤ x) {d : DeferredId}
    {deferred : Deferred EffectRef} (hd : w.deferreds.get? d = some deferred)
    (hnone : (w.registry.keep (olderThan i n)).listeners d = none) :
    w₀.Sprouts i n { w with
      deferreds := w.deferreds.insert d { deferred with listener := some ⟨i, x⟩ } } := by
  refine h.next ?_ (fun _ hwait hk => Or.inl ⟨_, hwait, hk⟩) rfl (fun {e deferred'} he => ?_)
    (Nat.le_refl _)
  · apply Registry.ext <;> try rfl
    funext e
    by_cases he : e = d
    · subst he
      rw [hnone]
      simp [Registry.keep, World.registry, olderThan_eq_false.2 hx]
    · simp only [Registry.keep, World.registry, Table.get?_insert, if_neg he]
  · by_cases hed : e = d
    · subst hed
      cases hd.symm.trans he
      exact ⟨{ deferred with listener := some ⟨i, x⟩ }, by simp, rfl⟩
    · exact ⟨_, by simpa [hed] using he, rfl⟩

/-- A deferred that nobody listens to comes in. -/
theorem addDeferred (h : w₀.Sprouts i n w) (hnew : w.deferreds.get? w.nextDeferred = none)
    {deferred : Deferred EffectRef} (hl : deferred.listener = none) :
    w₀.Sprouts i n (w.addDeferred deferred).2 := by
  refine h.next ?_ (fun _ hwait hk => Or.inl ⟨_, hwait, hk⟩) rfl (fun {e deferred'} he => ?_)
    (Nat.le_refl _)
  · apply Registry.ext <;> try rfl
    funext e
    simp only [Registry.keep, World.registry, World.addDeferred, Table.get?_insert]
    split
    · rename_i he
      subst he
      simp [hnew, hl]
    · rfl
  · have hne : e ≠ w.nextDeferred := by
      rintro rfl
      cases hnew.symm.trans he
    exact ⟨_, by simpa [World.addDeferred, hne] using he, rfl⟩

end World.Sprouts

/-! ## Leaves -/

/-- What effects are registered with is left alone. -/
structure World.Alike (w w' : World) : Prop where
  middlewares : w'.middlewares = w.middlewares
  channels : w'.channels = w.channels
  deferreds : w'.deferreds = w.deferreds
  nextDeferred : w'.nextDeferred = w.nextDeferred
  names : w'.deferredNames = w.deferredNames
  timers : w'.timerSupport = w.timerSupport

/--
Operations go by: wherever they run, with a budget of at least `cost`, they come to an end, spend no
more than that, and leave alone what effects are registered with.
-/
def GoBy (env : Env) (ops : List Op) (cost : Nat) : Prop :=
  ∀ (w : World) (todo : List Instr), cost ≤ w.budget →
    ∃ w', Config.Leads ⟨.ops env ops :: todo, w⟩ ⟨todo, w'⟩ ∧ w.Alike w' ∧
      w.budget ≤ w'.budget + cost

/-- An effect without members that is left pending when a task starts it, at some cost. -/
inductive World.ParksLeaf (w : World) (turn : Turn) : Effect → Nat → Prop
  | bus {pattern : Pattern} (h : (w.engine turn.mw).bus.hasEnded turn.task = false) :
      ParksLeaf w turn (.take .bus pattern) 0
  | channel {c : ChannelId} {channel : Channel Sink} {pattern : Pattern}
      (hc : w.channels.get? c = some channel) (hopen : channel.closed = false)
      (hempty : channel.buffer.take pattern = none) :
      ParksLeaf w turn (.take (.channel c) pattern) 0
  | join {t : TaskRef} (hown : t.owner = turn.mw) (hother : t.id ≠ turn.task)
      (hlive : (w.engine turn.mw).tasks.isLive t.id = true) : ParksLeaf w turn (.join t) 0
  | sleep {name : String} {ms : Nat} (ht : w.timerSupport = .available) :
      ParksLeaf w turn (.call name (.sleep ms)) 0
  | timer {name : String} {label : Option String} {ops : List Op} {ms cost : Nat}
      {fault : Option Fault} {value : Expr} {env : Env} (hops : GoBy env ops cost)
      (ht : w.timerSupport = .available) :
      ParksLeaf w turn (.call name (.scripted ⟨label, ops, .timer ms fault value⟩ env)) cost
  | deferred {name known : String} {label : Option String} {ops : List Op} {env : Env}
      {cost : Nat} {d : DeferredId} {deferred : Deferred EffectRef} (hops : GoBy env ops cost)
      (hknown : w.deferredNames.get? known = some d) (hd : w.deferreds.get? d = some deferred)
      (ho : deferred.outcome = none) (hl : deferred.listener = none) :
      ParksLeaf w turn (.call name (.scripted ⟨label, ops, .deferred known⟩ env)) cost

/-- An operation that only looks at something, or notes something down. -/
def Op.looks : Op → Bool
  | .live _ | .settings _ | .inspect _ | .sameTask .. | .watch .. | .wakes _ | .sameChannel ..
  | .showChannel _ | .showDeferred _ | .log .. | .unknown _ => true
  | _ => false

theorem World.Alike.refl (w : World) : w.Alike w := ⟨rfl, rfl, rfl, rfl, rfl, rfl⟩

theorem World.Alike.trans {w'' : World} (h : w.Alike w') (h' : w'.Alike w'') : w.Alike w'' :=
  ⟨h'.middlewares.trans h.middlewares, h'.channels.trans h.channels,
    h'.deferreds.trans h.deferreds, h'.nextDeferred.trans h.nextDeferred, h'.names.trans h.names,
    h'.timers.trans h.timers⟩

theorem World.alike_opWatch (t : TaskRef) (tag : String) :
    w.Alike (w.opWatch t tag).2 ∧ (w.opWatch t tag).2.budget = w.budget := by
  unfold World.opWatch
  dsimp only
  split <;> exact ⟨⟨rfl, rfl, rfl, rfl, rfl, rfl⟩, rfl⟩

theorem World.alike_runOp {o : Op} (h : o.looks = true) (env : Env) :
    ∃ name r w', w.runOp .nested env o = ⟨[.reply .nested name r], w'⟩ ∧ w.Alike w' ∧
      w'.budget = w.budget := by
  have hanswer : ∀ r, ∃ name r' w', w.answerOp .nested o r = ⟨[.reply .nested name r'], w'⟩ ∧
      w.Alike w' ∧ w'.budget = w.budget := fun r => ⟨_, _, _, rfl, .refl w, rfl⟩
  cases o with
  | live | settings =>
    simp only [World.runOp, World.withMiddleware]
    split <;> exact hanswer _
  | inspect =>
    simp only [World.runOp, World.withTask]
    split <;> exact hanswer _
  | showChannel =>
    simp only [World.runOp, World.withChannel]
    split
    · exact hanswer _
    · split <;> exact hanswer _
  | showDeferred =>
    simp only [World.runOp]
    split <;> exact hanswer _
  | sameTask | wakes | sameChannel | unknown => exact hanswer _
  | watch x tag =>
    simp only [World.runOp, World.withTask]
    split
    · exact ⟨_, _, _, rfl, World.alike_opWatch _ tag⟩
    · exact hanswer _
  | log => exact ⟨_, _, _, rfl, ⟨rfl, rfl, rfl, rfl, rfl, rfl⟩, rfl⟩
  | _ => cases h

/-- Operations that only look at something go by. -/
theorem GoBy.of_looks {env : Env} {ops : List Op} (h : ∀ o ∈ ops, o.looks = true) :
    GoBy env ops ops.length := by
  induction ops with
  | nil =>
    intro w todo _
    exact ⟨w, .exec (x := .ops env []) rfl, .refl w, Nat.le_refl _⟩
  | cons o ops ih =>
    intro w todo hb
    obtain ⟨budget, hbudget⟩ : ∃ n, w.budget = n + 1 := Nat.exists_eq_add_one.2 (by
      rw [List.length_cons] at hb
      omega)
    obtain ⟨name, r, w₁, hrun, halike₁, hb₁⟩ :=
      World.alike_runOp (w := { w with budget }) (h o List.mem_cons_self) env
    have hop : Instr.exec w (.op .nested env o) = some ⟨[.reply .nested name r], w₁⟩ := by
      have hspend : w.spend = some { w with budget } := by rw [World.spend, hbudget]
      rw [Instr.exec, World.execOp, hspend, Option.map_some, hrun]
    have hstep : Config.Leads ⟨.ops env (o :: ops) :: todo, w⟩
        ⟨.ops env ops :: todo, w₁.enter (.op name r)⟩ :=
      ((Config.Leads.exec (x := .ops env (o :: ops)) rfl).trans (.exec hop)).trans
        (.exec (x := .reply .nested name r) rfl)
    have halike : w.Alike (w₁.enter (.op name r)) :=
      ⟨halike₁.middlewares, halike₁.channels, halike₁.deferreds, halike₁.nextDeferred,
        halike₁.names, halike₁.timers⟩
    have hspent : (w₁.enter (.op name r)).budget = budget := hb₁
    rw [List.length_cons] at hb ⊢
    obtain ⟨w₂, hl, halike₂, hb₂⟩ := ih (fun o ho => h o (List.mem_cons_of_mem _ ho))
      (w₁.enter (.op name r)) todo (by omega)
    exact ⟨w₂, hstep.trans hl, halike.trans halike₂, by omega⟩

/-- An effect is left pending, and nothing but new effects was registered. -/
def Parked (w : World) (n : EffectId) (turn : Turn) (b : Body) (nests : List Nest) (x : EffectId)
    (budget : Nat) (c : Config) : Prop :=
  ∃ w', c = ⟨[.begun turn b nests (.pending x)], w'⟩ ∧ w.Sprouts turn.mw n w' ∧ w'.budget = budget

theorem World.alike_enterNotes (w : World) (notes : List Note) : w.Alike (w.enterNotes notes) := by
  induction notes generalizing w with
  | nil => exact ⟨rfl, rfl, rfl, rfl, rfl, rfl⟩
  | cons note notes ih =>
    have h := ih (w.enter (.note note))
    exact ⟨h.middlewares, h.channels, h.deferreds, h.nextDeferred, h.names, h.timers⟩

theorem World.budget_enterNotes (w : World) (notes : List Note) :
    (w.enterNotes notes).budget = w.budget := by
  induction notes generalizing w with
  | nil => rfl
  | cons note notes ih => exact ih (w.enter (.note note))

namespace World.Sprouts

theorem alike (h : w₀.Sprouts i n w) (ha : w.Alike w') : w₀.Sprouts i n w' :=
  h.congr ha.middlewares ha.channels ha.deferreds ha.names ha.timers

theorem suspend (h : w₀.Sprouts turn.mw n w) (hx : n ≤ x) {kind : WaitKind}
    (hcall : ∀ d, kind = .call d →
      (w.registry.keep (olderThan turn.mw n)).listeners d = none) :
    Parked w₀ n turn b nests x w.budget (w.suspend turn b nests x kind) :=
  ⟨_, rfl, h.insertWait hx hcall, rfl⟩

/-- A call is left pending with a deferred that is not settled. -/
theorem awaitDeferred (h : w₀.Sprouts turn.mw n w) (hx : n ≤ x) {d : DeferredId}
    {deferred : Deferred EffectRef} (hd : w.deferreds.get? d = some deferred)
    (ho : deferred.outcome = none)
    (hnone : (w.registry.keep (olderThan turn.mw n)).listeners d = none) :
    Parked w₀ n turn b nests x w.budget (w.awaitDeferred turn b nests x d) := by
  have hwait : w₀.Sprouts turn.mw n
      (w.insertWait turn.mw x ⟨turn.task, Nest.link nests, .call d⟩) :=
    h.insertWait hx fun d' hk => by cases hk; exact hnone
  refine ⟨_, ?_, hwait.listen hx hd ?_, rfl⟩
  · simp only [World.awaitDeferred, World.suspend]
    rw [show (w.insertWait turn.mw x ⟨turn.task, Nest.link nests, .call d⟩).deferreds.get? d =
      some deferred from hd]
    simp only [Deferred.subscribe, ho]
  · rw [World.keep_insertWait (olderThan_eq_false.2 hx)]
    exact hnone

/-- A call is left pending with a new timer. -/
theorem awaitTimer (h : w₀.Sprouts turn.mw n w) (hx : n ≤ x)
    (hnew : w.deferreds.get? w.nextDeferred = none) (ht : w₀.timerSupport = .available) (ms : Nat)
    (answer : Answer) : Parked w₀ n turn b nests x w.budget
      ((w.addTimer ms answer).2.awaitDeferred turn b nests x (w.addTimer ms answer).1) := by
  have ht : w.timerSupport = .available := (congrArg Situation.timers h.situation).trans ht
  have hadd : w₀.Sprouts turn.mw n (w.addTimer ms answer).2 := by
    have hadd : w₀.Sprouts turn.mw n (w.addDeferred { timer := some w.nextTimer }).2 :=
      h.addDeferred hnew rfl
    simp only [World.addTimer, ht]
    exact hadd.congr rfl rfl rfl rfl rfl
  have hfirst : (w.addTimer ms answer).1 = w.nextDeferred := by
    simp only [World.addTimer, ht]
    rfl
  have hget : (w.addTimer ms answer).2.deferreds.get? w.nextDeferred =
      some { timer := some w.nextTimer } := by
    simp [World.addTimer, ht, World.addDeferred]
  have hbudget : (w.addTimer ms answer).2.budget = w.budget := by
    simp only [World.addTimer, ht]
    rfl
  rw [hfirst, ← hbudget]
  exact hadd.awaitDeferred hx hget rfl (by simp [Registry.keep, World.registry, hget])

/-- A call is left pending with a known deferred that nobody listens to. -/
theorem awaitKnown (h : w₀.Sprouts turn.mw n w) (hx : n ≤ x) {d : DeferredId}
    {deferred : Deferred EffectRef} (hd : w₀.deferreds.get? d = some deferred)
    (ho : deferred.outcome = none) (hl : deferred.listener = none) :
    Parked w₀ n turn b nests x w.budget (w.awaitDeferred turn b nests x d) := by
  obtain ⟨deferred', hd', ho'⟩ := h.unsettled hd
  refine h.awaitDeferred hx hd' (ho'.trans ho) ?_
  rw [h.registry]
  simp [Registry.keep, World.registry, hd, hl]

/-- A take is left pending on a bus that has not ended for the task. -/
theorem startTake_bus (h : w₀.Sprouts turn.mw n w) (hx : n ≤ x) (pattern : Pattern)
    (hb : (w₀.engine turn.mw).bus.hasEnded turn.task = false) :
    Parked w₀ n turn b nests x w.budget (w.startTake turn b nests x .bus pattern) := by
  have hmark : (w.engine turn.mw).bus.watermark = (w₀.engine turn.mw).bus.watermark :=
    congrArg Situation.watermark h.situation
  have hended : (w.engine turn.mw).bus.hasEnded turn.task = false := by
    rw [Bus.hasEnded, hmark]
    exact hb
  have htake : (w.engine turn.mw).bus.take turn.task pattern x =
      ⟨(w.engine turn.mw).bus.nextTaker, false,
        { (w.engine turn.mw).bus with
          nextTaker := (w.engine turn.mw).bus.nextTaker + 1
          takers := (w.engine turn.mw).bus.takers ++
            [⟨(w.engine turn.mw).bus.nextTaker, turn.task, pattern, x⟩] }⟩ := by
    unfold Bus.take
    rw [if_neg (by simpa [Bus.hasEnded] using hended)]
  have hset := h.setEngine (f := fun e =>
    { e with bus := ((w.engine turn.mw).bus.take turn.task pattern x).bus }) rfl
    (by simp [htake, olderThan_eq_false.2 hx]) rfl rfl (by rw [htake]) (Nat.le_refl _)
  have hstart : w.startTake turn b nests x .bus pattern =
      (w.setEngine turn.mw fun e =>
        { e with bus := ((w.engine turn.mw).bus.take turn.task pattern x).bus }).suspend turn b
          nests x (.take .bus (w.engine turn.mw).bus.nextTaker) := by
    simp only [World.startTake, htake]
    rfl
  rw [hstart]
  exact hset.suspend hx (by simp)

/-- A take is left pending on an open channel that has nothing for it. -/
theorem startTake_channel (h : w₀.Sprouts turn.mw n w) (hx : n ≤ x) {pattern : Pattern}
    {c : ChannelId} {channel : Channel Sink} (hc : w₀.channels.get? c = some channel)
    (hopen : channel.closed = false) (hempty : channel.buffer.take pattern = none) :
    Parked w₀ n turn b nests x w.budget (w.startTake turn b nests x (.channel c) pattern) := by
  have hreg := congrFun (congrArg Registry.channels h.registry) c
  have hclosed := congrFun (congrArg Situation.closed h.situation) c
  simp only [Registry.keep, World.registry, hc, Option.map_some] at hreg
  simp only [World.situation, hc, Option.map_some] at hclosed
  obtain ⟨channel', hc', hclosed⟩ := Option.map_eq_some_iff.1 hclosed
  rw [hc'] at hreg
  have hbuffer : channel'.buffer = channel.buffer := congrArg Prod.snd (Option.some.inj hreg)
  have htake : channel'.take pattern (.effect ⟨turn.mw, x⟩) = ⟨channel'.nextTaker, none,
      { channel' with
        nextTaker := channel'.nextTaker + 1
        takers := channel'.takers ++
          [⟨channel'.nextTaker, pattern, .effect ⟨turn.mw, x⟩⟩] }⟩ := by
    simp [Channel.take, hbuffer, hempty, hclosed, hopen]
  have hnotes := h.alike (w.alike_enterNotes (channel'.takeNotes pattern))
  have hc'' : (w.enterNotes (channel'.takeNotes pattern)).channels.get? c = some channel' := by
    rw [(w.alike_enterNotes _).channels]
    exact hc'
  have htaken := hnotes.takeChannel hx hc'' channel'.nextTaker (channel'.nextTaker + 1) pattern
  simp only [World.startTake, hc', World.takeChannel, htake]
  rw [← w.budget_enterNotes (channel'.takeNotes pattern)]
  exact htaken.suspend hx (by simp)

/-- A join is left pending with a task that is in the table. -/
theorem startJoin (h : w₀.Sprouts turn.mw n w) (hx : n ≤ x) {t : TaskRef}
    (hown : t.owner = turn.mw) (hother : t.id ≠ turn.task) (ho : w.outcomeOf t = none)
    {node : TaskNode} (hn : w.task? turn.mw t.id = some node) :
    Parked w₀ n turn b nests x w.budget (w.startJoin turn b nests x t) := by
  unfold World.startJoin
  rw [if_neg (not_not_intro hown), if_neg hother]
  simp only [ho, hn]
  exact (h.join hx t.id).suspend hx (by simp)

end World.Sprouts

theorem World.status_of_situation (h : w'.situation i = w.situation i) (t : TaskId) :
    (w'.task? i t).map (·.status) = (w.task? i t).map (·.status) := by
  have hp : (w'.task? i t).map TaskNode.posture = (w.task? i t).map TaskNode.posture :=
    congrFun (congrArg Situation.postures h) t
  have hst := congrArg (Option.map Posture.status) hp
  rwa [Option.map_map, Option.map_map] at hst

theorem World.isHalted_of_situation {t : TaskId} (h : w'.situation i = w.situation i) :
    w'.isHalted i t = w.isHalted i t := by
  have hst := World.status_of_situation h t
  have hlive : ∀ w : World, w.isHalted i t =
      ((w.task? i t).map (·.status)).elim true Status.isTerminal := fun w => by
    simp only [World.isHalted, Tasks.isLive, World.task?]
    cases (w.engine i).tasks.get? t <;> simp
  rw [hlive, hlive, hst]

/-- The operations of a called function go by before it answers. -/
theorem World.Sprouts.leads_call (h : w₀.Sprouts turn.mw n w) {c : Config}
    {label : Option String} {ops : List Op} {answer : AnswerExpr} {env : Env} {cost : Nat}
    (hc : c.Leads
      ⟨(w.startCall turn b nests x (.scripted ⟨label, ops, answer⟩ env)).todo ++ rest,
        (w.startCall turn b nests x (.scripted ⟨label, ops, answer⟩ env)).world⟩)
    (hops : GoBy env ops cost) (hb : cost ≤ w.budget) (hanswer : ∀ w', w₀.Sprouts turn.mw n w' →
      w'.deferreds.get? w'.nextDeferred = w.deferreds.get? w.nextDeferred →
      Parked w₀ n turn b nests x w'.budget (w'.execAnswer turn b nests x answer env)) :
    ∃ w', c.Leads ⟨.begun turn b nests (.pending x) :: rest, w'⟩ ∧
      w₀.Sprouts turn.mw n w' ∧ w.budget ≤ w'.budget + cost := by
  obtain ⟨w₂, hworld, hlabel⟩ : ∃ w₂, w₂ = (w.startCall turn b nests x
      (.scripted ⟨label, ops, answer⟩ env)).world ∧ w.Alike w₂ ∧ w₂.budget = w.budget := by
    refine ⟨_, rfl, ?_⟩
    cases label <;> exact ⟨⟨rfl, rfl, rfl, rfl, rfl, rfl⟩, rfl⟩
  rw [← hworld] at hc
  obtain ⟨w₃, hlead, halike, hspent⟩ :=
    hops w₂ (.answer turn b nests x answer env :: rest) (hlabel.2 ▸ hb)
  obtain ⟨w₄, hexec, hs, hbudget⟩ := hanswer w₃ ((h.alike hlabel.1).alike halike) (by
    rw [halike.deferreds, halike.nextDeferred, hlabel.1.deferreds, hlabel.1.nextDeferred])
  refine ⟨w₄, ?_, hs, hbudget ▸ hlabel.2 ▸ hspent⟩
  have hlast : Config.Leads ⟨.answer turn b nests x answer env :: rest, w₃⟩
      ⟨.begun turn b nests (.pending x) :: rest, w₄⟩ :=
    .exec (x := .answer turn b nests x answer env)
      (c := ⟨[.begun turn b nests (.pending x)], w₄⟩) (congrArg some hexec)
  exact (hc.trans hlead).trans hlast

/-- A leaf is left pending under the next number. -/
theorem Scenario.Visits.start_leaf {s : Scenario} {e : Effect} {cost : Nat}
    (h : s.Visits ⟨.trigger turn b nests e :: rest, w⟩) (hs : w₀.Sprouts turn.mw n w)
    (he : w₀.ParksLeaf turn e cost) (hlive : w₀.isHalted turn.mw turn.task = false)
    (hb : cost ≤ w.budget) :
    ∃ w', Config.Leads ⟨.trigger turn b nests e :: rest, w⟩
        ⟨.begun turn b nests (.pending (w.engine turn.mw).nextEffect) :: rest, w'⟩ ∧
      w₀.Sprouts turn.mw n w' ∧ w.budget ≤ w'.budget + cost := by
  have ha : w.Alive turn.mw := h.alive_of_owner rfl
  have hhalt : w.isHalted turn.mw turn.task = false :=
    (World.isHalted_of_situation hs.situation).trans hlive
  have hnew : w.deferreds.get? w.nextDeferred = none := by
    cases hd : w.deferreds.get? w.nextDeferred with
    | none => rfl
    | some deferred => exact absurd (h.wired.timed.next hd) (Nat.lt_irrefl _)
  -- the effect has its number and is recorded; nothing is registered yet
  generalize hx : (w.engine turn.mw).nextEffect = x
  have hnx : n ≤ x := hx ▸ hs.number
  generalize hw₁ : (w.setEngine turn.mw fun e => { e with nextEffect := x + 1 }).record turn.mw
    (.triggered turn.task x (Nest.link nests).parent? e) = w₁
  have hs₁ : w₀.Sprouts turn.mw n w₁ := by
    have hset := hs.setEngine (f := fun e => { e with nextEffect := x + 1 }) rfl rfl rfl rfl rfl
      (by rw [hx]; exact Nat.le_succ x)
    exact hw₁ ▸ hset.congr rfl rfl rfl rfl rfl
  have hengine : w₁.engine turn.mw = { w.engine turn.mw with nextEffect := x + 1 } :=
    hw₁ ▸ World.engine_setEngine ha.has fun e => { e with nextEffect := x + 1 }
  have hsame : w₁.deferreds = w.deferreds ∧ w₁.nextDeferred = w.nextDeferred ∧
      w₁.budget = w.budget := hw₁ ▸ ⟨rfl, rfl, rfl⟩
  have hnew₁ : w₁.deferreds.get? w₁.nextDeferred = none := by
    rw [hsame.1, hsame.2.1]
    exact hnew
  have hexec : Config.Leads ⟨.trigger turn b nests e :: rest, w⟩
      ⟨(w.execTrigger turn b nests e).todo ++ rest, (w.execTrigger turn b nests e).world⟩ :=
    .exec (x := .trigger turn b nests e) rfl
  rw [World.execTrigger, if_neg (by simp [hhalt])] at hexec
  simp only [hx, hw₁] at hexec
  have hparked : ∀ {c : Config}, Parked w₀ n turn b nests x w₁.budget c →
      Config.Leads ⟨.trigger turn b nests e :: rest, w⟩ ⟨c.todo ++ rest, c.world⟩ →
      ∃ w', Config.Leads ⟨.trigger turn b nests e :: rest, w⟩
          ⟨.begun turn b nests (.pending x) :: rest, w'⟩ ∧
        w₀.Sprouts turn.mw n w' ∧ w.budget ≤ w'.budget + cost := by
    rintro c ⟨w', rfl, hs', hb'⟩ hc
    refine ⟨w', hc, hs', Nat.le_trans (Nat.le_of_eq ?_) (Nat.le_add_right _ _)⟩
    rw [hb', hsame.2.2]
  cases he with
  | bus hended => exact hparked (hs₁.startTake_bus hnx _ hended) hexec
  | channel hc hopen hempty =>
    exact hparked (hs₁.startTake_channel hnx hc hopen hempty) hexec
  | @join t hown hother htarget =>
    have hst := World.status_of_situation hs₁.situation t.id
    obtain ⟨node, hn⟩ : ∃ node, w₁.task? turn.mw t.id = some node := by
      cases hn : w₁.task? turn.mw t.id with
      | some node => exact ⟨node, rfl⟩
      | none =>
        rw [hn, eq_comm, Option.map_none, Option.map_eq_none_iff] at hst
        rw [World.task?] at hst
        simp [Tasks.isLive, hst] at htarget
    have ho : w₁.outcomeOf t = none := by
      have ha' : w.Alive t.owner := hown ▸ ha
      have houtcome : w₁.outcomeOf t = w.outcomeOf t := by
        simp only [World.outcomeOf, hown, hengine]
      rw [houtcome]
      cases ho : w.outcomeOf t with
      | none => rfl
      | some o =>
        have hgone := ((h.keeps t ha').absent o ho).1
        rw [World.posture_core, Option.map_eq_none_iff, hown] at hgone
        simp only [World.task?, hengine] at hn
        cases hgone.symm.trans hn
    exact hparked (hs₁.startJoin hnx hown hother ho hn) hexec
  | sleep ht => exact hparked (hs₁.awaitTimer hnx hnew₁ ht _ _) hexec
  | timer hops ht =>
    have hcall := hs₁.leads_call hexec hops (hsame.2.2 ▸ hb) fun w' hs' hd =>
      hs'.awaitTimer hnx (hd.trans hnew₁) ht _ _
    rwa [hsame.2.2] at hcall
  | deferred hops hknown hd ho hl =>
    have hcall := hs₁.leads_call hexec hops (hsame.2.2 ▸ hb) fun w' hs' _ => by
      have hnames : w'.deferredNames = w₀.deferredNames := congrArg Situation.names hs'.situation
      simp only [World.execAnswer, hnames, hknown]
      exact hs'.awaitKnown hnx hd ho hl
    rwa [hsame.2.2] at hcall

/-! ## Trees -/

/-- An effect with members: a race, keyed or positional, or an `all`. -/
inductive Effect.Opens : Effect → List Effect → (EffectId → Nat → List Effect → Nest) → Prop
  | race {members : List (String × Effect)} (hkeys : (members.map Prod.fst).Nodup) :
      Opens (.race members) (members.map Prod.snd) .race
  | racePositional (members : List Effect) : Opens (.racePositional members) members .race
  | all (members : List Effect) : Opens (.all members) members .all

theorem Effect.Opens.nest {e : Effect} {members : List Effect}
    {nest : EffectId → Nat → List Effect → Nest} (h : e.Opens members nest) :
    nest = .race ∨ nest = .all := by
  cases h with
  | all => exact Or.inr rfl
  | _ => exact Or.inl rfl

/-- Effects with and without members that are left pending one after the other, at some cost. -/
inductive World.Parks (w : World) (turn : Turn) : List Effect → Nat → Prop
  | nil : Parks w turn [] 0
  | leaf {e : Effect} {es : List Effect} {m n : Nat} (he : w.ParksLeaf turn e m)
      (hes : Parks w turn es n) : Parks w turn (e :: es) (m + n)
  | combinator {e : Effect} {members es : List Effect} {m n : Nat}
      {nest : EffectId → Nat → List Effect → Nest} (ho : e.Opens members nest)
      (hne : members ≠ []) (hm : Parks w turn members m) (hes : Parks w turn es n) :
      Parks w turn (e :: es) (m + n)

/-- What is next when some members of a combinator are still to be started. -/
def Instr.ofMembers (turn : Turn) (b : Body) (nests : List Nest)
    (nest : EffectId → Nat → List Effect → Nest) (x : EffectId) (slot : Nat) :
    List Effect → Instr
  | [] => .begun turn b nests (.pending x)
  | e :: es => .trigger turn b (nest x slot es :: nests) e

theorem Effect.duplicateKey?_of_nodup {members : List (String × Effect)}
    (h : (members.map Prod.fst).Nodup) : Effect.duplicateKey? members = none := by
  have hgo : ∀ (keys seen : List String), keys.Nodup → (∀ k ∈ keys, k ∉ seen) →
      Effect.duplicateKey?.go seen keys = none := by
    intro keys
    induction keys with
    | nil => exact fun _ _ _ => rfl
    | cons k keys ih =>
      intro seen hk hs
      obtain ⟨hkk, hk⟩ := List.nodup_cons.1 hk
      rw [Effect.duplicateKey?.go, if_neg (by simpa using hs k List.mem_cons_self)]
      refine ih _ hk fun k' hk' hm => ?_
      rcases List.mem_cons.1 hm with rfl | hm
      · exact hkk hk'
      · exact hs k' (List.mem_cons_of_mem _ hk') hm
  exact hgo _ [] h fun _ _ => List.not_mem_nil

section

variable {s : Scenario} {e : Effect} {members es : List Effect} {slot cost : Nat} {y : EffectId}
  {nest : EffectId → Nat → List Effect → Nest}

/-- A combinator is entered in the wait table before its first member is started. -/
theorem Scenario.Visits.start_combinator (h : s.Visits ⟨.trigger turn b nests e :: rest, w⟩)
    (hs : w₀.Sprouts turn.mw n w) (ho : e.Opens members nest) (hne : members ≠ [])
    (hlive : w₀.isHalted turn.mw turn.task = false) :
    ∃ w', Config.step ⟨.trigger turn b nests e :: rest, w⟩ = some
        ⟨.ofMembers turn b nests nest (w.engine turn.mw).nextEffect 0 members :: rest, w'⟩ ∧
      w₀.Sprouts turn.mw n w' ∧ w'.budget = w.budget := by
  have ha : w.Alive turn.mw := h.alive_of_owner rfl
  have hhalt : w.isHalted turn.mw turn.task = false :=
    (World.isHalted_of_situation hs.situation).trans hlive
  generalize hx : (w.engine turn.mw).nextEffect = x
  have hnx : n ≤ x := hx ▸ hs.number
  generalize hw₁ : (w.setEngine turn.mw fun e => { e with nextEffect := x + 1 }).record turn.mw
    (.triggered turn.task x (Nest.link nests).parent? e) = w₁
  have hs₁ : w₀.Sprouts turn.mw n w₁ := by
    have hset := hs.setEngine (f := fun e => { e with nextEffect := x + 1 }) rfl rfl rfl rfl rfl
      (by rw [hx]; exact Nat.le_succ x)
    exact hw₁ ▸ hset.congr rfl rfl rfl rfl rfl
  have hexec : Config.step ⟨.trigger turn b nests e :: rest, w⟩ =
      some ((w.execTrigger turn b nests e).followedBy rest) := rfl
  rw [World.execTrigger, if_neg (by simp [hhalt])] at hexec
  simp only [hx, hw₁] at hexec
  have hopened : ∀ {kind : WaitKind}, (∀ d, kind ≠ .call d) →
      Config.step ⟨.trigger turn b nests e :: rest, w⟩ = some
        ⟨.ofMembers turn b nests nest x 0 members :: rest,
          w₁.insertWait turn.mw x ⟨turn.task, Nest.link nests, kind⟩⟩ →
      ∃ w', Config.step ⟨.trigger turn b nests e :: rest, w⟩ = some
          ⟨.ofMembers turn b nests nest x 0 members :: rest, w'⟩ ∧
        w₀.Sprouts turn.mw n w' ∧ w'.budget = w.budget := by
    intro kind hkind hstep
    exact ⟨_, hstep, hs₁.insertWait hnx fun d hk => absurd hk (hkind d), hw₁ ▸ rfl⟩
  cases ho with
  | @race members hkeys =>
    simp only [World.startKeyedRace, Effect.duplicateKey?_of_nodup hkeys] at hexec
    generalize members.map Prod.snd = ms at *
    obtain ⟨e', es, rfl⟩ := List.exists_cons_of_ne_nil hne
    exact hopened (by simp) hexec
  | racePositional members =>
    obtain ⟨e', es, rfl⟩ := List.exists_cons_of_ne_nil hne
    exact hopened (by simp) hexec
  | all members =>
    obtain ⟨e', es, rfl⟩ := List.exists_cons_of_ne_nil hne
    exact hopened (by simp) hexec

/-- When a member is left pending the next one is started, or the combinator is left pending. -/
theorem Scenario.Visits.step_member
    (h : s.Visits ⟨.begun turn b (nest x slot es :: nests) (.pending y) :: rest, w⟩)
    (hnest : nest = .race ∨ nest = .all) :
    Config.step ⟨.begun turn b (nest x slot es :: nests) (.pending y) :: rest, w⟩ = some
      ⟨.ofMembers turn b nests nest x (slot + 1) es :: rest, w.setMember turn.mw x slot y⟩ := by
  rcases hnest with rfl | rfl
  · cases es <;> rfl
  · cases es with
    | cons => rfl
    | nil =>
      have hg := h.grounds rfl (h.alive_of_owner rfl).has
      have hopen := (hg.tabled.frames _ List.mem_cons_self).1
      obtain ⟨⟨wait, hw, -, -, hfits⟩, -⟩ := hopen
      obtain ⟨task, link, kind⟩ := wait
      cases kind with
      | all results members remaining =>
        obtain ⟨hcount, values, started, -, -, rfl, -⟩ := hfits
        obtain ⟨k, rfl⟩ : ∃ k, remaining = k + 1 := ⟨values.countP (·.isNone), by simp [hcount]⟩
        have hget : ((w.setMember turn.mw x slot y).engine turn.mw).waits.get? x = some
            ⟨task, link, .all (values ++ [none]) (members.set slot (some y)) (k + 1)⟩ := by
          rw [World.setMember, World.setWaits, World.engine_setEngine hg.has, Table.get?_modify,
            if_pos rfl, show (w.engine turn.mw).waits.get? x = _ from hw]
          rfl
        have hstep : Config.step
            ⟨.begun turn b (Nest.all x slot [] :: nests) (.pending y) :: rest, w⟩ = some
            (((w.setMember turn.mw x slot y).nextOfAll turn b x slot [] nests).followedBy rest) :=
          rfl
        rw [hstep, World.nextOfAll, hget]
        rfl
      | _ => exact hfits.elim

/-- Members that are left pending are started from left to right. -/
theorem Scenario.Visits.start_members (hes : w₀.Parks turn es cost)
    (hlive : w₀.isHalted turn.mw turn.task = false) :
    ∀ {w : World} {nests : List Nest} {nest : EffectId → Nat → List Effect → Nest} {slot : Nat}
      {x : EffectId}, s.Visits ⟨.ofMembers turn b nests nest x slot es :: rest, w⟩ →
      nest = .race ∨ nest = .all → w₀.Sprouts turn.mw n w → n ≤ x → cost ≤ w.budget →
      ∃ w', Config.Leads ⟨.ofMembers turn b nests nest x slot es :: rest, w⟩
          ⟨.begun turn b nests (.pending x) :: rest, w'⟩ ∧
        w₀.Sprouts turn.mw n w' ∧ w.budget ≤ w'.budget + cost := by
  induction hes with
  | nil =>
    intro w nests nest slot x h _ hs _ _
    exact ⟨w, .refl _, hs, Nat.le_refl _⟩
  | @leaf e es m k he hes ih =>
    intro w nests nest slot x h hnest hs hx hb
    obtain ⟨w₁, hl₁, hs₁, hb₁⟩ := h.start_leaf hs he hlive (by omega)
    have h₁ := h.leads hl₁
    have hstep := h₁.step_member hnest
    obtain ⟨w₂, hl₂, hs₂, hb₂⟩ := ih (h₁.step hstep) hnest (hs₁.setMember hx _ _) hx
      (show k ≤ w₁.budget by omega)
    have hb₂ : w₁.budget ≤ w₂.budget + k := hb₂
    exact ⟨w₂, (hl₁.trans (.step hstep (.refl _))).trans hl₂, hs₂, by omega⟩
  | @combinator e members es m k nest' ho hne hm hes ihm ih =>
    intro w nests nest slot x h hnest hs hx hb
    obtain ⟨w₁, hstep₁, hs₁, hb₁⟩ := h.start_combinator hs ho hne hlive
    obtain ⟨w₂, hl₂, hs₂, hb₂⟩ := ihm (h.step hstep₁) ho.nest hs₁ hs.number (by omega)
    have h₂ := (h.step hstep₁).leads hl₂
    have hstep₂ := h₂.step_member hnest
    obtain ⟨w₃, hl₃, hs₃, hb₃⟩ := ih (h₂.step hstep₂) hnest (hs₂.setMember hx _ _) hx
      (show k ≤ w₂.budget by omega)
    have hb₃ : w₂.budget ≤ w₃.budget + k := hb₃
    exact ⟨w₃, (Config.Leads.step hstep₁ hl₂).trans (.step hstep₂ hl₃), hs₃, by omega⟩

/-- Before anything is started, nothing was registered. -/
theorem Scenario.Visits.sprouts_refl (h : s.Visits ⟨.trigger turn b nests e :: rest, w⟩) :
    w.Sprouts turn.mw (w.engine turn.mw).nextEffect w where
  registry := rfl
  calls hy hw _ :=
    have hT := (h.grounds rfl (h.alive_of_owner rfl).has).tabled
    absurd hy (Nat.not_le.2 (hT.number hw))
  situation := rfl
  unsettled hd := ⟨_, hd, rfl⟩
  number := Nat.le_refl _

/-- A tree whose leaves are left pending is left pending, under the next number. -/
theorem Scenario.Visits.start_parked (h : s.Visits ⟨.trigger turn b nests e :: rest, w⟩)
    (he : w.Parks turn [e] cost) (hlive : w.isHalted turn.mw turn.task = false)
    (hb : cost ≤ w.budget) :
    ∃ w', Config.Leads ⟨.trigger turn b nests e :: rest, w⟩
        ⟨.begun turn b nests (.pending (w.engine turn.mw).nextEffect) :: rest, w'⟩ ∧
      w.Sprouts turn.mw (w.engine turn.mw).nextEffect w' := by
  have hs := h.sprouts_refl
  cases he with
  | leaf he hnil =>
    obtain ⟨w', hl, hs', -⟩ := h.start_leaf hs he hlive (by omega)
    exact ⟨w', hl, hs'⟩
  | combinator ho hne hm hnil =>
    obtain ⟨w₁, hstep, hs₁, hb₁⟩ := h.start_combinator hs ho hne hlive
    obtain ⟨w₂, hl, hs₂, -⟩ :=
      (h.step hstep).start_members hm hlive ho.nest hs₁ (Nat.le_refl _) (by omega)
    exact ⟨w₂, .step hstep hl, hs₂⟩

end

end

end SagaMachine
