import SagaMachine.Proofs.Attendance
import SagaMachine.Proofs.Clearances
import SagaMachine.Proofs.Lifetimes

/-!
# Watchers that keep one worker

A watcher that keeps only its latest worker clears away the worker before, with the whole subtree
that is attached to it, before it forks the next one. So between two pieces of work of the driver at
most one worker is live, and this is the one for the action that the watcher was polled with last.

Main statement: `Scenario.Visits.keeps_latest`.
-/

namespace SagaMachine

section

variable {s : Scenario} {c c' : Config} {w : World} {rest : List Instr} {i : MiddlewareId}
  {t u : TaskId} {b : WatcherBody} {q : Concern} {z : EffectId} {past es : List Event}

/-! ## While a watcher clears away -/

theorem Event.Between.forks {e : Event} (h : e.Between t z) : e.fork? t = none := by
  unfold Event.fork?
  split
  · exact if_neg fun hu => h hu rfl
  · rfl

/-- Nothing but what lies between it and its answer has happened since an effect was asked for. -/
theorem Regular.between {mid early early' : List Event} {e e' : Effect}
    (h : Regular (es ++ .triggered t z none e :: early))
    (heq : es ++ .triggered t z none e :: early = mid ++ .triggered t z none e' :: early')
    (hmid : ∀ ev ∈ mid, ev.Between t z) : ∀ ev ∈ es, ev.Between t z := by
  rcases List.append_eq_append_iff.1 heq with ⟨more, rfl, -⟩ | ⟨more, rfl, hmore⟩
  · exact fun ev hev => hmid ev (List.mem_append_left _ hev)
  · cases more with
    | nil => simpa using hmid
    | cons ev more =>
      obtain ⟨rfl, rfl⟩ := List.cons.inj hmore
      -- it would have been triggered twice
      rw [List.append_assoc] at h
      refine absurd (h.split.1 z ?_) (Nat.lt_irrefl z)
      exact mem_triggeredIn.2 ⟨t, none, e, List.mem_append_right _ List.mem_cons_self⟩

/-- A task forks nobody while it is waiting for a cancellation. -/
theorem Scenario.Visits.forks_of_cancelDone {body : Body} {e : Effect} {early : List Event}
    (h : s.Visits ⟨.cancelDone ⟨i, t⟩ body [] z :: rest, w⟩)
    (hpast : w.past i = es ++ .triggered t z none e :: early) : forksOf t es = [] := by
  have ha : w.Alive i := h.alive_of_owner rfl
  obtain ⟨d, hd⟩ := h.conversation ha.has t
  have hph : d.phase = .asking z :=
    ((hd.fits (Config.alive_iff.2 ha)).turn (.cancelDone ⟨i, t⟩ body [] z)
      (List.mem_filter.2 ⟨List.mem_cons_self, by simp [Instr.owner?]⟩) rfl).2.2.2
  have hreads := hd.dialogue.reads
  rw [Talk.Reads, hph] at hreads
  obtain ⟨-, e', mid, early', hsplit, hmid⟩ := hreads
  have hsplit : w.past i = _ := hsplit
  have hregular : Regular (w.past i) := (h.kept ha.has).regular
  rw [hpast] at hsplit hregular
  refine List.filterMap_eq_nil_iff.2 fun ev hev => ?_
  exact (hregular.between hsplit hmid ev (List.mem_reverse.1 hev)).forks

/-- The cancellation of a live task that is not stepped records it, and all that is attached to it. -/
theorem Scenario.Visits.cancel_records {todo : List Instr} {cost : TaskId → Nat}
    (h : s.Visits ⟨.cancel i u :: todo, w⟩) (hl : (w.core i).Live u)
    (hcur : ∀ v, (w.engine i).current = some v → v < u)
    (hb : ∀ v n body, (w.engine i).tasks.Attached u v → w.task? i v = some n →
      n.body = some body → body.HarmlessTo i (cost v))
    (hw : (((w.engine i).tasks.cancellationOrder u).map cost).sum ≤ w.budget) :
    ∃ w' es, Config.Leads ⟨.cancel i u :: todo, w⟩ ⟨todo, w'⟩ ∧ w'.past i = es ++ w.past i ∧
      ∀ v, (w.engine i).tasks.Attached u v → .taskFinished v .cancelled ∈ es := by
  have hg := h.grounds rfl (World.has_of_live hl)
  have hF := hg.family
  simp only [hg.attached_iff] at hb ⊢
  obtain ⟨w', chain, hlead, hf, -⟩ := h.cancel_leads hl hb hw
  obtain ⟨es, hpast, hes⟩ := hf.past
  refine ⟨w', es.reverse, hlead, hpast, fun v hv => List.mem_reverse.2 ?_⟩
  obtain ⟨n, hn, -⟩ := Tasks.isLive_iff.1 hv.isLive
  have hnot : (w.engine i).current ≠ some v := fun hc => Nat.not_lt_of_le (hv.le hF) (hcur v hc)
  have hmem : .taskFinished v .cancelled ∈ w.demise i v := by
    rw [World.demise, show w.task? i v = some n from hn]
    simp [hnot]
  have hin : .taskFinished v .cancelled ∈ es.filter Event.isMilestone := by
    rw [hes]
    exact List.mem_append_left _ (List.mem_flatMap.2
      ⟨v, (Tasks.mem_cancellationOrder hF (World.live_iff.2 hl)).2 hv, hmem⟩)
  exact (List.mem_filter.1 hin).1

/-- A live worker is recorded as cancelled, with all that is attached to it, before the next one. -/
theorem Scenario.Visits.clears_before {a : Action} {v : TaskRef} {cost : TaskId → Nat}
    (h : s.Visits ⟨.poll ⟨i, t⟩ (.watcher b) (some (.ok (.action a))) :: rest, w⟩)
    (hm : b.Minds i) (hp : b.phase = .taking) (hmode : b.plan.mode = .latest)
    (hlast : b.last = some v) (hl : (w.core i).Live t) (htv : t < v.id)
    (hlv : (w.core i).Live v.id)
    (hb : ∀ x n body, (w.engine i).tasks.Attached v.id x → w.task? i x = some n →
      n.body = some body → body.HarmlessTo i (cost x))
    (hw : (((w.engine i).tasks.cancellationOrder v.id).map cost).sum ≤ w.budget) :
    ∃ body y w' es, Config.Leads ⟨.poll ⟨i, t⟩ (.watcher b) (some (.ok (.action a))) :: rest, w⟩
        ⟨.cancelDone ⟨i, t⟩ body [] y :: rest, w'⟩ ∧ w'.past i = es ++ w.past i ∧
      forksOf t es = [] ∧
      ∀ x, (w.engine i).tasks.Attached v.id x → .taskFinished x .cancelled ∈ es := by
  have ha : w.Alive i := h.alive_of_owner rfl
  have hi := ha.has
  have own : v.owner = i := hm v hlast
  have hresume : b.resume (some (.ok (.action a))) =
      ({ b with phase := .clearing a, last := none }, .yielded (.cancel (some v))) := by
    simp [WatcherBody.resume, hp, hmode, hlast]
  let w₁ := w.record i (.polled t (some (.ok (.action a))))
  have hi₁ : w₁.Has i := hi
  have hl₁ : (w₁.core i).Live t := hl
  let w₂ := w₁.cancelling i t v
  have hengine : w₂.engine i = { w.engine i with nextEffect := (w.engine i).nextEffect + 1 } := by
    show (w₁.setEngine i fun e => { e with nextEffect := (w₁.engine i).nextEffect + 1 }).engine i = _
    rw [World.engine_setEngine hi₁]
    rfl
  have hstart : Config.Leads ⟨.poll ⟨i, t⟩ (.watcher b) (some (.ok (.action a))) :: rest, w⟩
      ⟨.cancel i v.id :: .cancelDone ⟨i, t⟩ (.watcher { b with phase := .clearing a, last := none }) []
        (w.engine i).nextEffect :: rest, w₂⟩ :=
    .step (Config.step_poll hresume) (.step (Config.step_polled hl₁)
      (.step (Config.step_cancel own hl₁) (.refl _)))
  have htasks : (w₂.engine i).tasks = (w.engine i).tasks := by rw [hengine]
  have hcore : (w₂.core i).posture = (w.core i).posture := by
    funext x
    show ((w₂.engine i).tasks.get? x).map _ = _
    rw [htasks]
    rfl
  have hlive : (w₂.core i).Live v.id := by
    obtain ⟨p, hp, hs⟩ := hlv
    exact ⟨p, by rw [hcore]; exact hp, hs⟩
  have hcur : (w₂.engine i).current = some t := by
    have hstack := ((h.sound hi).framed.stack).turn_unique (t := t)
      (List.mem_filter.2 ⟨List.mem_cons_self, by simp [Instr.owner?]⟩) rfl
    rw [hengine]
    exact hstack
  obtain ⟨w', es, hlead, hpast, hrecorded⟩ := (h.leads hstart).cancel_records hlive
    (fun x hx => by cases hcur.symm.trans hx; exact htv)
    (fun x n body hx hn => hb x n body (htasks ▸ hx)
      ((congrArg (fun ts : Tasks => ts.get? x) htasks).symm.trans hn))
    (by rw [htasks]; exact hw)
  let begun : List Event := [.triggered t (w.engine i).nextEffect none (.cancel (some v)),
    .polled t (some (.ok (.action a)))]
  have hpast₂ : w₂.past i = begun ++ w.past i :=
    (World.past_record _).trans (congrArg _ (World.past_record _))
  rw [hpast₂] at hpast
  refine ⟨_, _, w', es ++ begun, hstart.trans hlead, by rw [hpast, List.append_assoc], ?_, fun x hx =>
    List.mem_append_left _ (hrecorded x (htasks ▸ hx))⟩
  rw [forksOf_append, ((h.leads hstart).leads hlead).forks_of_cancelDone hpast]
  rfl

/-! ## The latest worker -/

/-- While it waits for another action, and remembers its worker, a watcher has forked it. -/
theorem Config.Watches.got_eq_nil (hw : c.Watches i t b q) (hb : q.before = some u)
    (hturn : ∀ y ∈ framesOf i c.todo, y.turn? ≠ some t) : q.got = [] := by
  cases hw with
  | fresh | parked | leaves => rfl
  | aside _ hh =>
    cases hh with
    | cleared => cases hb
    | _ => rfl
  | turn hy hatt => exact absurd hatt.turn?.1 (hturn _ hy)

/-- A watcher that is polled with an action has waited for it. -/
theorem Config.Watches.of_poll {a : Action} {body : Body} (hw : c.Watches i t b q) (h : s.Visits c)
    (htodo : c.todo = .poll ⟨i, t⟩ body (some (.ok (.action a))) :: rest) :
    body = .watcher b ∧ b.phase = .taking ∧ q.before = b.last.map (·.id) := by
  obtain ⟨todo, w⟩ := c
  subst htodo
  have ha : w.Alive i := h.alive_of_owner rfl
  have hF : framesOf i (.poll ⟨i, t⟩ body (some (.ok (.action a))) :: rest) =
      .poll ⟨i, t⟩ body (some (.ok (.action a))) :: framesOf i rest := by
    simp [framesOf_cons, Instr.owner?]
  have absent {p : Body × Option EffectId} : w.rests i t ≠ some p :=
    h.not_rests_in_turn ha.has (hF ▸ List.mem_cons_self) rfl
  cases hw with
  | fresh hq | aside hq | parked hq => exact absurd hq absent
  | leaves _ hd => cases hd
  | turn hy hatt =>
    have hy : _ ∈ Instr.poll ⟨i, t⟩ body (some (.ok (.action a))) :: framesOf i rest := hF ▸ hy
    rcases List.mem_cons.1 hy with rfl | hy
    · cases hatt with
      | polls hh ho =>
        cases hh with
        | action hp => exact ⟨rfl, hp, rfl⟩
        | ended => cases ho
        | cleared | forked => cases ho
    · have hlast := h.drain_below (t := t) ha.has rfl (Or.inr (Or.inr rfl)) _ hy
      have hturn := hatt.turn?.1
      rw [hlast] at hturn
      cases hturn

/-- What a watcher that keeps only its latest worker has done since it was created. -/
structure Config.Succeeds (d : Config) (i : MiddlewareId) (t : TaskId) (plan : WatchPlan)
    (c : Config) (es : List Event) (workers : List (Action × TaskId)) : Prop where
  past : c.world.past i = es ++ d.world.past i
  forks : forksOf t es = workers.map (fun p => (plan.workerFor p.1, false))
  children : childrenOf t es = workers.map Prod.snd
  born : ∀ p ∈ workers, ∃ d', d.Precedes d' ∧ d'.Precedes c ∧
    d'.world.rests i p.2 = some ((plan.workerFor p.1).program.start p.2, none)
  /-- Between two pieces of work of the driver a worker that is live is the latest one, and it is the
  one for the action that the watcher was polled with last. -/
  latest : (∀ y ∈ framesOf i c.todo, y = .drain i) → ∀ p ∈ workers, (c.world.core i).Live p.2 →
    (∃ front, workers = front ++ [p]) ∧ (actionsOf t es).getLast? = some p.1
  /-- When the watcher is polled with another action, a worker that is still live is recorded as
  cancelled, with all that is attached to it, and only then the next one is forked. -/
  clears : ∀ p ∈ workers, (c.world.core i).Live p.2 → ∀ {a : Action} {body : Body}
    {rest : List Instr}, c.todo = .poll ⟨i, t⟩ body (some (.ok (.action a))) :: rest →
    ∀ cost : TaskId → Nat, (∀ v n body, (c.world.engine i).tasks.Attached p.2 v →
      c.world.task? i v = some n → n.body = some body → body.HarmlessTo i (cost v)) →
    (((c.world.engine i).tasks.cancellationOrder p.2).map cost).sum ≤ c.world.budget →
    ∃ body' y w' es', c.Leads ⟨.cancelDone ⟨i, t⟩ body' [] y :: rest, w'⟩ ∧
      w'.past i = es' ++ c.world.past i ∧ forksOf t es' = [] ∧
      ∀ v, (c.world.engine i).tasks.Attached p.2 v → .taskFinished v .cancelled ∈ es'
  /-- A worker that has come to its end keeps its outcome. -/
  keeps : ∀ p ∈ workers, ∀ {c' : Config}, c.Precedes c' → c'.world.Alive i →
    World.Final ⟨i, p.2, (plan.workerFor p.1).name⟩ c.world c'.world

/-- A watcher that was created to keep its latest worker does so. -/
theorem Scenario.Visits.succeeds {d : Config} {n : TaskNode} {plan : WatchPlan} (h : s.Visits d)
    (hn : d.world.task? i t = some n) (hcreated : n.status = .created)
    (hbody : n.body = some ((Program.watcher plan).start t)) (hmode : plan.mode = .latest)
    (hlate : d.Precedes c) (hl : (c.world.core i).Live t) (hdrop : .bodyDropped t ∉ c.world.past i) :
    ∃ es workers, d.Succeeds i t plan c es workers := by
  obtain ⟨hrests, hl₀, only⟩ := h.created_rests hn hcreated hbody
  have hi := (h.alive_of_posture hl₀.choose_spec.1).has
  have hv := h.precedes hlate
  have ha : c.world.Alive i := hv.alive_of_posture hl.choose_spec.1
  obtain ⟨as, hrun⟩ := hlate.spreads
  obtain ⟨workers, b, q, hs⟩ :=
    h.serves (b := { plan }) nofun (.fresh hrests rfl only) hl₀ hrun hl hdrop
  obtain ⟨es, hes, hforks, hgot, hchildren⟩ := hs.past
  have hplan : b.plan = plan := hs.plan
  have hbefore := hs.before hmode
  refine ⟨es, workers, hes, hforks, hchildren, fun p hp => (hs.born p hp).2, ?_, ?_, ?_⟩
  · intro hF p hp hlp
    obtain ⟨hlast, front, rfl⟩ := (hbefore p hp).resolve_right (not_not_intro hlp)
    have hnil := hs.watches.got_eq_nil hlast fun y hy => by simp [hF y hy, Instr.turn?]
    have hgot : [] ++ actionsOf t es = _ := hgot
    rw [hnil, List.append_nil, List.nil_append, List.map_append] at hgot
    exact ⟨⟨front, rfl⟩, by rw [hgot]; exact List.getLast?_concat⟩
  · intro p hp hlp a body rest htodo cost hb hw
    obtain ⟨todo, w⟩ := c
    subst htodo
    obtain ⟨rfl, hphase, hlast⟩ := hs.watches.of_poll hv rfl
    obtain ⟨hq, -⟩ := (hbefore p hp).resolve_right (not_not_intro hlp)
    obtain ⟨v, hvlast, hvid⟩ := Option.map_eq_some_iff.1 (hlast.symm.trans hq)
    have htv := (hs.born p hp).1
    rw [← hvid] at hlp hb hw htv ⊢
    exact hv.clears_before hs.minds hphase (hplan ▸ hmode) hvlast hl htv hlp hb hw
  · intro p hp c' hlater ha'
    obtain ⟨-, d', hd, hbirth, hrests'⟩ := hs.born p hp
    have hv' := h.precedes hd
    let u : TaskRef := ⟨i, p.2, (plan.workerFor p.1).name⟩
    obtain ⟨a, ha₀, -⟩ := World.hasBody_iff.2 ⟨_, hrests'⟩
    have ha₀ : (d'.world.core u.owner).posture u.id = some a := ha₀
    have hborn := (hv'.keeps u (hv'.alive_of_posture ha₀)).present a ha₀
    exact (hv.final (hv'.final hborn hbirth ha).1 hlater ha').2

/--
A watcher that keeps only its latest worker, from its creation until it is ended, cancelled or
aborted: between two pieces of work of the driver at most one of its workers is live, the one for
the action that it was polled with last; a worker that is still live when another action comes is
recorded as cancelled, with all that is attached to it, before the next one is forked, and one that
has come to its end keeps its outcome. And it misses no action from its first take on the bus on.
-/
theorem Scenario.Visits.keeps_latest {d : Config} {n : TaskNode} {plan : WatchPlan}
    (h : s.Visits d) (hn : d.world.task? i t = some n) (hcreated : n.status = .created)
    (hbody : n.body = some ((Program.watcher plan).start t)) (hmode : plan.mode = .latest)
    (hlate : d.Precedes c) (hl : (c.world.core i).Live t) (hdrop : .bodyDropped t ∉ c.world.past i) :
    (∃ es workers, d.Succeeds i t plan c es workers) ∧
    ∀ {c₀ z as}, d.Precedes c₀ → .triggered t z none (.take .bus plan.pattern) ∈ c₀.world.past i →
      c₀.world.OnBus ⟨i, z⟩ → c₀.Spreads i as c →
      ∃ workers due, c₀.Staffs i t plan as c workers due ∧ due.length ≤ 1 ∧
        ((∃ y ∈ c.todo, y.Sends i) ∨ (c.world.engine i).driving = false ∨
          (∃ body rest, c.todo = .dropBody ⟨i, t⟩ body :: rest) → due = []) := by
  refine ⟨h.succeeds hn hcreated hbody hmode hlate hl hdrop, fun h₀ htake hon hrun => ?_⟩
  obtain ⟨workers, b, q, hw, hstaffs⟩ := h.employs hn hcreated hbody h₀ htake hon hrun hl hdrop
  exact ⟨workers, q.due, hstaffs, hw.due_le_one, (h.precedes hlate).nothing_due hw hl⟩

end

/-- The second task is polled with an action. -/
def Config.pollsPing? (c : Config) : Bool :=
  match c.todo with
  | .poll ⟨0, 2⟩ _ (some (.ok (.action _))) :: _ => true
  | _ => false

theorem Scenario.keeps_latest_pingsTwice : ∃ d c plan es a todo w' es',
    (pingsTwice .latest).Visits d ∧ d.Precedes c ∧ d.Succeeds 0 2 plan c es [(a, 3)] ∧
      c.Leads ⟨todo, w'⟩ ∧ w'.past 0 = es' ++ c.world.past 0 ∧
      .taskFinished 3 .cancelled ∈ es' ∧ forksOf 2 es' = [] := by
  have h : (((pingsTwice .latest).during? (.run 0 { source := .named "pings" } none) 7).any fun d =>
      d.watchesPing? .latest && (d.run 59).watchesOn? && (d.run 59).pollsPing? &&
        ((d.run 59).world.engine 0).tasks.isLive 3 && (d.run 59).world.guardsIdle 0 &&
        (childrenOf 2 (d.world.past 0)).isEmpty &&
        decide (childrenOf 2 ((d.run 59).world.past 0) = [3])) = true := by
    decide +kernel
  obtain ⟨d, hd, h⟩ := (Option.any_eq_true ..).1 h
  simp only [Bool.and_eq_true, decide_eq_true_eq] at h
  obtain ⟨⟨⟨⟨⟨⟨hwatches, hon⟩, hpoll⟩, hlive⟩, hguards⟩, hnone⟩, hchild⟩ := h
  have hv : (pingsTwice .latest).Visits d := Visits.of_during? hd
  obtain ⟨n, plan, hn, hs, hb, hmode, -⟩ := Config.of_watchesPing? hwatches
  obtain ⟨hl, hdrop⟩ := Config.of_watchesOn? hon
  have hlate : d.Precedes (d.run 59) := .run .refl 59
  obtain ⟨⟨es, workers, hsucceeds⟩, -⟩ := hv.keeps_latest hn hs hb hmode hlate hl hdrop
  rw [hsucceeds.past, childrenOf_append, List.isEmpty_iff.1 hnone, List.nil_append,
    hsucceeds.children] at hchild
  obtain ⟨⟨a, u⟩, rfl, rfl⟩ := List.map_eq_singleton_iff.1 hchild
  have hharmless := World.harmless_of_guardsIdle hguards
  unfold Config.pollsPing? at hpoll
  split at hpoll
  · rename_i htodo
    obtain ⟨body, y, w', es', hleads, hpast, hforks, hrecorded⟩ := hsucceeds.clears _
      List.mem_cons_self (World.live_iff.1 hlive) htodo (fun _ => 0)
      (fun v n body _ hn hb => hharmless.bodies hn hb) (by simp)
    exact ⟨d, _, plan, es, a, _, w', es', hv, hlate, hsucceeds, hleads, hpast,
      hrecorded 3 (.root hlive), hforks⟩
  · cases hpoll

end SagaMachine
