import SagaMachine.Proofs.Vigils

/-!
# Watchers miss nothing

Step by step (`Scenario.Visits.tends`), and hence on whole runs (`Scenario.Visits.serves`), a watcher
keeps account of the actions that are broadcast: those that its pattern accepts are the ones that it
has forked workers for, followed by at most one that is still due.

Main statement: `Scenario.Visits.misses_nothing`.
-/

namespace SagaMachine

section

variable {s : Scenario} {c c' : Config} {w : World} {x y : Instr} {rest F : List Instr}
  {i : MiddlewareId} {t u : TaskId} {b : WatcherBody} {q : Concern} {r : Reaction} {z : EffectId}
  {d : Option TaskId}

namespace Scenario.Visits

/-- A task that is not live any more stays so. -/
theorem live_earlier (h : s.Visits c) (hi : c.world.Has i) (hc : c.step = some c')
    (ht : t < (c.world.engine i).nextTask) (hl : (c'.world.core i).Live t) :
    (c.world.core i).Live t := by
  cases hp : (c.world.core i).posture t with
  | some p => exact h.live_before hi hc hp hl
  | none =>
    obtain ⟨p', hp', hs⟩ := hl
    cases h.turnover hi hc with
    | evolves _ _ _ core => exact absurd (core.new hp hp').1 (Nat.not_le_of_lt ht)
    | @records _ _ _ v _ _ _ _ _ _ _ _ _ _ posture =>
      have hpost : ((c.world.core i).bury v).posture t = some p' := (congrFun posture t).symm.trans hp'
      rw [Core.posture_bury, hp] at hpost
      split at hpost <;> cases hpost
    | dies _ _ core =>
      rw [show c'.world.core i = _ from core] at hp'
      cases hp'

/-- Numbers of tasks are given once. -/
theorem number_precedes (h : s.Visits c) (hi : c.world.Has i) (hp : c.Precedes c')
    (ha : c'.world.Alive i) : (c.world.engine i).nextTask ≤ (c'.world.engine i).nextTask := by
  induction hp with
  | refl => exact Nat.le_refl _
  | call _ o budget ih => exact ih ha
  | step hp hstep ih =>
    have hv := h.precedes hp
    have hi' := (h.has_precedes hp).2 hi
    refine (ih (hv.alive_of_step hi' hstep ha)).trans ?_
    cases hv.turnover hi' hstep with
    | evolves _ _ _ core => exact core.number
    | records _ _ _ _ _ _ _ _ number => exact Nat.le_of_eq number.symm
    | dies alive => exact absurd (Config.alive_iff.2 ha) (by rw [show _ = false from alive]; simp)

/-- A task that is live later on was live before, once it had been created. -/
theorem live_precedes (h : s.Visits c) (hi : c.world.Has i) (hp : c.Precedes c')
    (ht : t < (c.world.engine i).nextTask) (hl : (c'.world.core i).Live t) :
    (c.world.core i).Live t := by
  induction hp with
  | refl => exact hl
  | call _ o budget ih => exact ih hl
  | step hp hstep ih =>
    have hv := h.precedes hp
    have hi' := (h.has_precedes hp).2 hi
    obtain ⟨p, hp', -⟩ := id hl
    have ha := hv.alive_of_step hi' hstep ((hv.step hstep).alive_of_posture hp')
    exact ih (hv.live_earlier hi' hstep (Nat.lt_of_lt_of_le ht (h.number_precedes hi hp ha)) hl)

/-- A task whose step is under way is in the table. -/
theorem posture_of_turn (h : s.Visits c) (hi : c.world.Has i) (hy : y ∈ framesOf i c.todo)
    (ht : y.turn? = some t) : ∃ p, (c.world.core i).posture t = some p :=
  have hs := h.sound hi
  (hs.orderly.driver (hs.framed.stack.turn_unique hy ht)).2

/-- A watcher goes on, one step of the machine after the other. -/
theorem tends (h : s.Visits c) (hi : c.world.Has i) (hc : c.step = some c') (hm : b.Minds i)
    (hw : c.Watches i t b q) (hl' : (c'.world.core i).Live t)
    (hdrop : .bodyDropped t ∉ c'.world.past i) :
    ∃ workers b' q', c.Tends i t b q c' workers b' q' := by
  obtain ⟨todo, w⟩ := c
  obtain ⟨x, rest, rfl⟩ : ∃ x rest, todo = x :: rest := by
    cases todo with
    | nil => cases hc
    | cons x rest => exact ⟨x, rest, rfl⟩
  have live {p : Body × Option EffectId} (hq : w.rests i t = some p) : (w.core i).Live t := by
    obtain ⟨p, hp, -⟩ := World.hasBody_iff.2 ⟨_, hq⟩
    exact h.live_before hi hc hp hl'
  cases hw with
  | fresh hq hp only => exact ⟨_, _, _, h.tends_fresh hi hc hm hq hp only (live hq) hl'⟩
  | aside hq hh hne only => exact ⟨_, _, _, h.tends_aside hi hc hm hq hh hne only (live hq) hl'⟩
  | parked hq hp takes hears brought =>
    obtain ⟨q', htends⟩ := h.tends_parked hc hm hq hp takes hears brought (live hq) hl'
    exact ⟨_, _, _, htends⟩
  | turn hy hatt =>
    obtain ⟨p, hp⟩ := h.posture_of_turn hi hy hatt.turn?.1
    have hl := h.live_before hi hc hp hl'
    rw [framesOf_cons] at hy
    split at hy
    · rcases List.mem_cons.1 hy with rfl | hy
      · exact h.tends_turn hc hm hl hatt
      · obtain ⟨q', htends⟩ := h.tends_below hi hc hm hy hatt
        exact ⟨_, _, _, htends⟩
    · obtain ⟨q', htends⟩ := h.tends_below hi hc hm hy hatt
      exact ⟨_, _, _, htends⟩
  | leaves hp htodo =>
    obtain ⟨rfl, rfl⟩ := List.cons.inj htodo
    refine absurd ?_ hdrop
    have hstep : Config.step ⟨.dropBody ⟨i, t⟩ (.watcher b) :: rest, w⟩ = some
        ⟨.guards [] :: rest, w.record i (.bodyDropped t)⟩ := rfl
    cases hstep.symm.trans hc
    rw [World.past_record]
    exact List.mem_cons_self

end Scenario.Visits

/-! ## Runs -/

/-- A run goes on from one configuration to another, and broadcasts actions on the way. -/
inductive Config.Spreads (i : MiddlewareId) (c : Config) : List Action → Config → Prop
  | start : Spreads i c [] c
  | call {as : List Action} {w : World} (h : Spreads i c as ⟨[], w⟩) (o : Op) (budget : Nat) :
      Spreads i c as ⟨[.op .outside .empty o], { w with reply := none, budget }⟩
  | step {as : List Action} {c₁ c₂ : Config} (h : Spreads i c as c₁) (hc : c₁.step = some c₂) :
      Spreads i c (as ++ c₁.broadcasts i) c₂

theorem Config.Spreads.precedes {as : List Action} (h : c.Spreads i as c') : c.Precedes c' := by
  induction h with
  | start => exact .refl
  | call _ o budget ih => exact .call ih o budget
  | step _ hc ih => exact .step ih hc

theorem Config.Precedes.spreads (h : c.Precedes c') : ∃ as, c.Spreads i as c' := by
  induction h with
  | refl => exact ⟨_, .start⟩
  | call _ o budget ih =>
    obtain ⟨as, ih⟩ := ih
    exact ⟨_, .call ih o budget⟩
  | step _ hc ih =>
    obtain ⟨as, ih⟩ := ih
    exact ⟨_, .step ih hc⟩

/-- A watcher is where it was when the next operation comes in. -/
theorem Config.Watches.call (h : Config.Watches ⟨[], w⟩ i t b q) (o : Op) (budget : Nat) :
    Config.Watches ⟨[.op .outside .empty o], { w with reply := none, budget }⟩ i t b q := by
  have hF : framesOf i [.op .outside .empty o] = [] := rfl
  have hbrings {r : EffectRef} {signal : Signal} :
      Config.Brings ⟨[.op .outside .empty o], { w with reply := none, budget }⟩ r signal ↔
        Config.Brings ⟨[], w⟩ r signal :=
    Config.brings_cons.trans (or_iff_right id)
  cases h with
  | fresh hq hp only => exact .fresh hq hp only
  | aside hq hh hne only => exact .aside hq hh hne only
  | parked hq hp takes hears brought =>
    exact .parked hq hp ⟨takes.has, takes.triggered⟩ (fun signal hb => hears signal (hbrings.1 hb))
      fun hdue => (brought hdue).imp fun _ => hbrings.2
  | turn hy => cases hy
  | leaves hp htodo => cases htodo

/-- What a watcher has done on a run: all that was broadcast to it is served, or still due. -/
structure Config.Serves (c : Config) (i : MiddlewareId) (t : TaskId) (b : WatcherBody) (q : Concern)
    (as : List Action) (c' : Config) (workers : List (Action × TaskId)) (b' : WatcherBody)
    (q' : Concern) : Prop where
  plan : b'.plan = b.plan
  minds : b'.Minds i
  polled : b.phase ≠ .fresh → b'.phase ≠ .fresh
  watches : c'.Watches i t b' q'
  due : b.phase ≠ .fresh → q.due ++ as.filter (fun a => b.plan.pattern.accepts (.action a)) =
    workers.map Prod.fst ++ q'.due
  past : ∃ es, c'.world.past i = es ++ c.world.past i ∧
    forksOf t es = workers.map (fun p => (b.plan.workerFor p.1, false)) ∧
    q.got ++ actionsOf t es = workers.map Prod.fst ++ q'.got ∧
    childrenOf t es = workers.map Prod.snd
  born : ∀ p ∈ workers, t < p.2 ∧ ∃ d, c.Precedes d ∧ d.Precedes c' ∧
    d.world.rests i p.2 = some ((b.plan.workerFor p.1).program.start p.2, none)
  /-- A watcher that keeps only one worker remembers the last one, which may be live. -/
  before : b.plan.mode = .latest → ∀ p ∈ workers,
    (q'.before = some p.2 ∧ ∃ front, workers = front ++ [p]) ∨ ¬ (c'.world.core i).Live p.2

namespace Config.Serves

variable {as : List Action} {workers more : List (Action × TaskId)} {b' b'' : WatcherBody}
  {q' q'' : Concern}

theorem start (hm : b.Minds i) (hw : c.Watches i t b q) : c.Serves i t b q [] c [] b q where
  plan := rfl
  minds := hm
  polled := id
  watches := hw
  due _ := by simp
  past := ⟨[], rfl, rfl, by simp [actionsOf], rfl⟩
  born := nofun
  before _ := nofun

theorem call (h : c.Serves i t b q as ⟨[], w⟩ workers b' q') (o : Op) (budget : Nat) :
    c.Serves i t b q as ⟨[.op .outside .empty o], { w with reply := none, budget }⟩ workers b' q' where
  plan := h.plan
  minds := h.minds
  polled := h.polled
  watches := h.watches.call o budget
  due := h.due
  past := h.past
  born p hp := by
    obtain ⟨hn, d, hd, hlater, hrests⟩ := h.born p hp
    exact ⟨hn, d, hd, .call hlater o budget, hrests⟩
  before := h.before

theorem step {c₁ c₂ : Config} (h : c.Serves i t b q as c₁ workers b' q') (hv : s.Visits c)
    (hi : c.world.Has i) (hrun : c.Spreads i as c₁) (hc : c₁.step = some c₂)
    (ht : c₁.Tends i t b' q' c₂ more b'' q'') :
    c.Serves i t b q (as ++ c₁.broadcasts i) c₂ (workers ++ more) b'' q'' where
  plan := ht.plan.trans h.plan
  minds := ht.minds
  polled hb := ht.polled (h.polled hb)
  watches := ht.watches
  due hb := by
    have h₁ := h.due hb
    have h₂ := ht.due (h.polled hb)
    rw [h.plan] at h₂
    rw [List.filter_append, ← List.append_assoc, h₁, List.append_assoc, h₂, List.map_append,
      List.append_assoc]
  past := by
    obtain ⟨es, hes, hforks, hgot, hchildren⟩ := h.past
    obtain ⟨es', hes', hforks', hgot', hchildren'⟩ := ht.past
    refine ⟨es' ++ es, by rw [hes', hes, List.append_assoc], ?_, ?_, ?_⟩
    · rw [forksOf_append, hforks, hforks', h.plan, List.map_append]
    · rw [actionsOf_append, ← List.append_assoc, hgot, List.append_assoc, hgot', List.map_append,
        List.append_assoc]
    · rw [childrenOf_append, hchildren, hchildren', List.map_append]
  born p hp := by
    rcases List.mem_append.1 hp with hp | hp
    · obtain ⟨hn, d, hd, hlater, hrests⟩ := h.born p hp
      exact ⟨hn, d, hd, .step hlater hc, hrests⟩
    · obtain ⟨-, -, -, hn, hrests⟩ := ht.born p hp
      rw [h.plan] at hrests
      exact ⟨hn, c₂, .step hrun.precedes hc, .refl, hrests⟩
  before hmode := by
    have hmode' : b'.plan.mode = .latest := by rw [h.plan, hmode]
    -- a worker that is gone does not come back
    have hgone (p) (hp : p ∈ workers) : (q'.before = some p.2 ∧ ∃ front, workers = front ++ [p]) ∨
        ¬ (c₂.world.core i).Live p.2 := by
      refine (h.before hmode p hp).imp_right fun hdead hl => hdead ?_
      obtain ⟨-, d, hd, hlater, hrests⟩ := h.born p hp
      have hvd := hv.precedes hd
      have hid := (hv.has_precedes hd).2 hi
      obtain ⟨a, ha, -⟩ := World.hasBody_iff.2 ⟨_, hrests⟩
      have hv₁ := hvd.precedes hlater
      have hi₁ := (hvd.has_precedes hlater).2 hid
      obtain ⟨_, hp', -⟩ := id hl
      have ha₁ := hv₁.alive_of_step hi₁ hc ((hv₁.step hc).alive_of_posture hp')
      exact hv₁.live_earlier hi₁ hc (Nat.lt_of_lt_of_le ((hvd.sound hid).orderly.tasks ha).number
        (hvd.number_precedes hid hlater ha₁)) hl
    rcases more with _ | ⟨new, more⟩
    · simp only [List.append_nil]
      intro p hp
      rcases hgone p hp with ⟨hb, hfront⟩ | hdead
      · rcases ht.before hmode' rfl with hsame | ⟨-, hdead⟩
        · exact Or.inl ⟨hsame.trans hb, hfront⟩
        · exact Or.inr (hdead _ hb)
      · exact Or.inr hdead
    · obtain ⟨hone, hnone, hnew, -⟩ := ht.born new List.mem_cons_self
      rw [hone]
      intro p hp
      rcases List.mem_append.1 hp with hp | hp
      · refine (hgone p hp).imp_left fun ⟨hb, _⟩ => ?_
        rw [hnone] at hb
        cases hb
      · cases List.mem_singleton.1 hp
        exact Or.inl ⟨hnew, workers, rfl⟩

end Config.Serves

/-- What a watcher does on a run on which it is not ended, cancelled or aborted. -/
theorem Scenario.Visits.serves {as : List Action} (h : s.Visits c) (hm : b.Minds i)
    (hw : c.Watches i t b q) (hl : (c.world.core i).Live t) (hrun : c.Spreads i as c')
    (hl' : (c'.world.core i).Live t) (hdrop : .bodyDropped t ∉ c'.world.past i) :
    ∃ workers b' q', c.Serves i t b q as c' workers b' q' := by
  obtain ⟨p, hp, -⟩ := id hl
  have hi := (h.alive_of_posture hp).has
  have ht : t < (c.world.engine i).nextTask := ((h.sound hi).orderly.tasks hp).number
  induction hrun with
  | start => exact ⟨_, _, _, .start hm hw⟩
  | call _ o budget ih =>
    obtain ⟨workers, b', q', hs⟩ := ih hl' hdrop
    exact ⟨workers, b', q', hs.call o budget⟩
  | @step _ c₁ c₂ hrun hc ih =>
    have hv := h.precedes hrun.precedes
    have hi₁ := (h.has_precedes hrun.precedes).2 hi
    obtain ⟨p', hp', -⟩ := id hl'
    have ha := hv.alive_of_step hi₁ hc ((hv.step hc).alive_of_posture hp')
    have hl₁ := hv.live_earlier hi₁ hc
      (Nat.lt_of_lt_of_le ht (h.number_precedes hi hrun.precedes ha)) hl'
    have hdrop₁ : .bodyDropped t ∉ c₁.world.past i := fun hd => by
      obtain ⟨es, hes⟩ := hv.past_precedes hi₁ (.step .refl hc)
      exact hdrop (hes ▸ List.mem_append_right _ hd)
    obtain ⟨workers, b', q', hs⟩ := ih hl₁ hdrop₁
    obtain ⟨more, b'', q'', hts⟩ := hv.tends hi₁ hc hs.minds hs.watches hl' hdrop
    exact ⟨_, _, _, hs.step h hi hrun hc hts⟩

/-! ## Nothing is missed -/

/-- A task that was just created is there, with its body at rest, and only its start is due. -/
theorem Scenario.Visits.created_rests {body : Body} (h : s.Visits c) {n : TaskNode}
    (hn : c.world.task? i t = some n) (hs : n.status = .created) (hb : n.body = some body) :
    c.world.rests i t = some (body, none) ∧ (c.world.core i).Live t ∧
      ∀ r, r.Steps t → c.Due i r → r = .start t := by
  have hp : (c.world.core i).posture t = some n.posture := by rw [World.posture_core, hn]; rfl
  have ha := h.alive_of_posture hp
  have hterm : n.posture.status.isTerminal = false := by
    show n.status.isTerminal = false
    rw [hs]
    rfl
  have hbody : n.posture.hasBody = true := by simp [TaskNode.posture, hb]
  obtain ⟨hpend, howes⟩ : n.pending = none ∧ c.Due i (.start t) := by
    have hs : n.posture.status = .created := hs
    cases ((h.sound ha.has).orderly.tasks hp).standing hterm with
    | created _ _ hpend _ howes => exact ⟨hpend, howes⟩
    | yielded hs' | parked hs' | running hs' => rw [hs] at hs'; cases hs'
    | waiting hb' => rw [hbody] at hb'; cases hb'
  refine ⟨World.rests_eq_some.2 ⟨n, hn, hb, hpend⟩, ⟨_, hp, hterm⟩, fun r hr hdue => ?_⟩
  obtain ⟨d, hd⟩ := h.conversation ha.has t
  have hstart := Config.Due.mem howes (t := t) rfl
  have hr' := hdue.mem hr
  rcases ((hd.fits (Config.alive_iff.2 ha)).rest hp hbody hterm).aside hpend with ⟨-, hsteps⟩ | ⟨_, _, -, hsteps⟩
  · have hsteps : dueSteps (c.world.core i) (framesOf i c.todo) t = _ := hsteps
    rw [hsteps] at hr'
    exact List.mem_singleton.1 hr'
  · have hsteps : dueSteps (c.world.core i) (framesOf i c.todo) t = _ := hsteps
    rw [hsteps] at hstart
    cases List.mem_singleton.1 hstart


/-- A watcher whose take is on the bus has nothing to see to. -/
theorem Scenario.Visits.unburdened {e : Effect} (h : s.Visits c)
    (ha : c.world.Alive i) (hw : c.Watches i t b q) (hl : (c.world.core i).Live t)
    (hz : .triggered t z none e ∈ c.world.past i) (hon : c.world.OnBus ⟨i, z⟩) :
    b.phase ≠ .fresh ∧ q.due = [] ∧ q.got = [] := by
  obtain ⟨d, hd⟩ := h.conversation ha.has t
  have hv : Voiced i t d (c.world.core i) (framesOf i c.todo) _ := hd.fits (Config.alive_iff.2 ha)
  obtain ⟨id, hreg⟩ := hon.registered
  obtain ⟨u, -, link, hwait⟩ := (h.wired.fits (r := ⟨i, z⟩) ha).backed hreg
  have hph : d.phase = .asking z := hv.pending hwait (hd.dialogue.mem_asked hz)
  have hrest {body : Body} {pending : Option EffectId}
      (hq : c.world.rests i t = some (body, pending)) : pending = some z := by
    obtain ⟨n, hn, hb, rfl⟩ := World.rests_eq_some.1 hq
    obtain ⟨p, hp, hs⟩ := hl
    have hp' := hp
    rw [World.posture_core, hn] at hp'
    cases hp'
    have hr := hv.rest hp (by simp [TaskNode.posture, hb]) hs
    cases hpend : n.pending with
    | none => rcases hr.aside hpend with ⟨hph', -⟩ | ⟨_, _, hph', -⟩ <;> cases hph.symm.trans hph'
    | some y =>
      cases hph.symm.trans (hr.parked hpend).1
      rfl
  cases hw with
  | fresh hq | aside hq => cases hrest hq
  | @parked y due hq hp _ hears brought =>
    cases hrest hq
    refine ⟨by simp [hp], ?_, rfl⟩
    by_contra hdue
    obtain ⟨signal, hb⟩ := brought hdue
    exact (h.wired.fits ha).silent hreg hb.owes
  | leaves hp => exact ⟨by simp [hp], rfl, rfl⟩
  | @turn y _ hy hatt =>
    have hvoice := (hv.turn y hy hatt.turn?.1).2.2.2
    rw [hph] at hvoice
    cases hatt with
    | starts | polls => rcases hvoice with ⟨hvoice, -⟩ | ⟨_, _, hvoice, -⟩ <;> cases hvoice
    | polled | triggers => cases hvoice
    | begun | yields => obtain ⟨_, hvoice⟩ := hvoice; cases hvoice
    | begunTake hp | parks hp | ends hp => exact ⟨by simp [hp], rfl, rfl⟩
    | @clears _ y =>
      cases hvoice
      have hA := (h.kept ha.has).accounts (Config.alive_iff.2 ha)
      have hattempt := hA.attempts ⟨t, z, none⟩ (List.mem_filterMap.2 ⟨_, hy, rfl⟩)
      cases hattempt.2.2.symm.trans hwait

/-- Nothing is due to a watcher while an action is about to be broadcast. -/
theorem Config.Watches.due_of_hushed (hw : c.Watches i t b q) (h : s.Visits c)
    (hl : (c.world.core i).Live t) (hq : c.Hushed i)
    (hturn : ∀ y ∈ framesOf i c.todo, y.turn? ≠ some t) : q.due = [] := by
  cases hw with
  | fresh | leaves => rfl
  | parked _ _ takes _ brought =>
    by_contra hdue
    obtain ⟨signal, hb⟩ := brought hdue
    exact hq.takes _ _ _ takes hb
  | turn hy hatt => exact absurd hatt.turn?.1 (hturn _ hy)
  | aside hrest _ _ only =>
    -- it is about to go on
    obtain ⟨n, hn, hb, hpend⟩ := World.rests_eq_some.1 hrest
    obtain ⟨p, hp, hs⟩ := hl
    have hp' := hp
    rw [World.posture_core, hn] at hp'
    cases hp'
    have hbody : n.posture.hasBody = true := by simp [TaskNode.posture, hb]
    cases ((h.sound (h.alive_of_posture hp).has).orderly.tasks hp).standing hs with
    | created _ _ _ _ howes => cases only (.start t) rfl howes
    | yielded _ _ _ _ howes => exact absurd howes (hq.aside _ _)
    | parked _ _ hsome => cases hsome.symm.trans hpend
    | running _ hnone | waiting hnone => cases hnone.symm.trans hbody

theorem Config.Watches.due_le_one (hw : c.Watches i t b q) : q.due.length ≤ 1 := by
  have hears {signal : Signal} {q : Concern} (hh : b.Hears i signal q) : q.due.length ≤ 1 := by
    cases hh <;> simp
  cases hw with
  | fresh | leaves => exact Nat.zero_le _
  | aside _ hh => exact hears hh
  | @parked _ due _ _ _ hh brought =>
    rcases due with _ | ⟨a, due⟩
    · exact Nat.zero_le _
    · obtain ⟨signal, hb⟩ := brought nofun
      exact hears (hh signal hb)
  | turn _ hatt =>
    cases hatt with
    | starts | begunTake | parks | ends => exact Nat.zero_le _
    | polls hh | begun hh | yields hh => exact hears hh
    | polled hasks | triggers hasks => cases hasks <;> simp
    | clears => exact Nat.le_refl _

/-- No frame brings an action while a task is stepped. -/
theorem Stack.not_sends (h : Stack i (some t) F) : ∀ y ∈ F, ¬ y.Sends i := by
  generalize hd : some t = d at h
  induction h with
  | rest | drain | works | calls | ends => cases hd
  | @turn u x hx =>
    intro y hy hs
    rcases List.mem_cons.1 hy with rfl | hy
    · cases y with
      | perform | emit | forwarded => cases hx
      | _ => exact hs.elim
    · rw [List.mem_singleton.1 hy] at hs
      exact hs
  | @cancels d x F hx _ _ ih =>
    intro y hy hs
    rcases List.mem_cons.1 hy with rfl | hy
    · cases y with
      | perform | emit | forwarded => exact hx.elim
      | _ => exact hs.elim
    · exact ih hd y hy hs


/-- Before an action is broadcast, and where the driver is at rest, nothing is due to a watcher. -/
theorem Scenario.Visits.nothing_due (h : s.Visits c) (hw : c.Watches i t b q)
    (hl : (c.world.core i).Live t) (hc : (∃ y ∈ c.todo, y.Sends i) ∨
      (c.world.engine i).driving = false ∨ ∃ body rest, c.todo = .dropBody ⟨i, t⟩ body :: rest) :
    q.due = [] := by
  have ha := h.alive_of_posture hl.choose_spec.1
  have hstack := (h.sound ha.has).framed.stack
  rcases hc with ⟨y, hy, hs⟩ | hidle | ⟨body, rest, htodo⟩
  · have hyF : y ∈ framesOf i c.todo := List.mem_filter.2 ⟨hy, by simp [hs.owner?]⟩
    refine hw.due_of_hushed h hl (h.hushed ha hy hs) fun z hz hzt => ?_
    have hcur : (c.world.core i).current = some t := hstack.turn_unique hz hzt
    exact (hcur ▸ hstack : Stack i (some t) (framesOf i c.todo)).not_sends y hyF hs
  · obtain ⟨hpend, hF⟩ := h.pending_of_idle ha.has hidle
    exact hw.due_of_hushed h hl (h.hushed_of_unhurried ha hpend (by simp [hF])) (by simp [hF])
  · -- its body is nowhere else
    obtain ⟨d, hd⟩ := h.conversation ha.has t
    have hv : Voiced i t d (c.world.core i) (framesOf i c.todo) (dropsOf i c.todo) :=
      hd.fits (Config.alive_iff.2 ha)
    have hdrop : t ∈ dropsOf i c.todo :=
      List.mem_filterMap.2 ⟨_, htodo ▸ List.mem_cons_self, by simp [Instr.drops?]⟩
    have absent {p : Body × Option EffectId} (hq : c.world.rests i t = some p) : False := by
      obtain ⟨p, hp, hb⟩ := World.hasBody_iff.2 ⟨_, hq⟩
      exact (hv.body hp hb).1 hdrop
    cases hw with
    | fresh | leaves => rfl
    | aside hq | parked hq => exact (absent hq).elim
    | turn hy hatt => exact absurd hdrop (hv.turn _ hy hatt.turn?.1).1

/--
On a run that broadcasts some actions a watcher forks one worker, built from the action, for each of
those that its pattern accepts, in this order. The last ones may still be due.
-/
structure Config.Staffs (c : Config) (i : MiddlewareId) (t : TaskId) (plan : WatchPlan)
    (as : List Action) (c' : Config) (workers : List (Action × TaskId)) (due : List Action) :
    Prop where
  served : as.filter (fun a => plan.pattern.accepts (.action a)) = workers.map Prod.fst ++ due
  past : ∃ es, c'.world.past i = es ++ c.world.past i ∧
    forksOf t es = workers.map (fun p => (plan.workerFor p.1, false)) ∧
    childrenOf t es = workers.map Prod.snd
  born : ∀ p ∈ workers, ∃ d, c.Precedes d ∧ d.Precedes c' ∧
    d.world.rests i p.2 = some ((plan.workerFor p.1).program.start p.2, none)

/-- From its first take on the bus on a watcher has its work cut out. -/
theorem Scenario.Visits.employs {d c₀ : Config} {n : TaskNode} {plan : WatchPlan} {as : List Action}
    (h : s.Visits d) (hn : d.world.task? i t = some n) (hcreated : n.status = .created)
    (hbody : n.body = some ((Program.watcher plan).start t)) (h₀ : d.Precedes c₀)
    (htake : .triggered t z none (.take .bus plan.pattern) ∈ c₀.world.past i)
    (hon : c₀.world.OnBus ⟨i, z⟩) (hrun : c₀.Spreads i as c) (hl : (c.world.core i).Live t)
    (hdrop : .bodyDropped t ∉ c.world.past i) :
    ∃ workers b q, c.Watches i t b q ∧ c₀.Staffs i t plan as c workers q.due := by
  obtain ⟨hrests, hl₀, only⟩ := h.created_rests hn hcreated hbody
  have hi := (h.alive_of_posture hl₀.choose_spec.1).has
  have hnumber : t < (d.world.engine i).nextTask :=
    ((h.sound hi).orderly.tasks hl₀.choose_spec.1).number
  have hv₀ := h.precedes h₀
  have hi₀ := (h.has_precedes h₀).2 hi
  have hv := hv₀.precedes hrun.precedes
  have ha₀ := hv₀.alive_of_precedes hrun.precedes (hv.alive_of_posture hl.choose_spec.1)
  have hl₁ : (c₀.world.core i).Live t := hv₀.live_precedes hi₀ hrun.precedes
    (Nat.lt_of_lt_of_le hnumber (h.number_precedes hi h₀ ha₀)) hl
  have hdrop₀ : .bodyDropped t ∉ c₀.world.past i := fun hd => by
    obtain ⟨es, hes⟩ := hv₀.past_precedes hi₀ hrun.precedes
    exact hdrop (hes ▸ List.mem_append_right _ hd)
  -- up to its take
  obtain ⟨as₀, hrun₀⟩ := h₀.spreads
  obtain ⟨_, b', q', hs₀⟩ :=
    h.serves (b := { plan }) nofun (.fresh hrests rfl only) hl₀ hrun₀ hl₁ hdrop₀
  obtain ⟨hfresh, hdue, hgot⟩ := hv₀.unburdened ha₀ hs₀.watches hl₁ htake hon
  -- and from there on
  obtain ⟨workers, b, q, hs⟩ := hv₀.serves hs₀.minds hs₀.watches hl₁ hrun hl hdrop
  obtain ⟨es, hes, hforks, -, hchildren⟩ := hs.past
  have hplan : b'.plan = plan := hs₀.plan
  have hserved := hs.due hfresh
  have hborn := hs.born
  rw [hdue, List.nil_append, hplan] at hserved
  rw [hplan] at hforks hborn
  exact ⟨workers, b, q, hs.watches, hserved, ⟨es, hes, hforks, hchildren⟩,
    fun p hp => (hborn p hp).2⟩

/--
A watcher misses nothing. From its first take on the bus until it is ended, cancelled or aborted,
it forks exactly one worker, built from the action, for each action that is broadcast and that its
pattern accepts, in this order. It may still owe one worker, for the last of these actions, but not
when another action is about to be broadcast, nor when the driver has come to rest, nor when the
watcher is at its end.
-/
theorem Scenario.Visits.misses_nothing {d c₀ : Config} {n : TaskNode} {plan : WatchPlan}
    {as : List Action} (h : s.Visits d) (hn : d.world.task? i t = some n)
    (hcreated : n.status = .created) (hbody : n.body = some ((Program.watcher plan).start t))
    (h₀ : d.Precedes c₀) (htake : .triggered t z none (.take .bus plan.pattern) ∈ c₀.world.past i)
    (hon : c₀.world.OnBus ⟨i, z⟩) (hrun : c₀.Spreads i as c) (hl : (c.world.core i).Live t)
    (hdrop : .bodyDropped t ∉ c.world.past i) :
    ∃ workers due, c₀.Staffs i t plan as c workers due ∧ due.length ≤ 1 ∧
      ((∃ y ∈ c.todo, y.Sends i) ∨ (c.world.engine i).driving = false ∨
        (∃ body rest, c.todo = .dropBody ⟨i, t⟩ body :: rest) → due = []) := by
  obtain ⟨workers, b, q, hw, hstaffs⟩ := h.employs hn hcreated hbody h₀ htake hon hrun hl hdrop
  exact ⟨workers, q.due, hstaffs, hw.due_le_one,
    ((h.precedes h₀).precedes hrun.precedes).nothing_due hw hl⟩

end

/-- A saga starts a watcher, and puts two actions for it. -/
def Scenario.pingsTwice (mode : WatchMode) : Scenario where
  middlewares := [{}]
  scripts := [
    ("pong", [.perform (.take none (.type "STOP")) none none]),
    ("pings", [.perform (.fork { source := .watcher mode (.type "PING") "pong" }) none none,
      .perform (.dispatch { kind := "PING" }) none none,
      .perform (.dispatch { kind := "PING" }) none none])]

/-- The second task is a watcher that was just created. -/
def Config.watchesPing? (mode : WatchMode) (c : Config) : Bool :=
  (c.world.task? 0 2).any fun n =>
    match n.status, n.body with
    | .created, some (.watcher
        { plan := { mode := mode', pattern := .type "PING", .. }, phase := .fresh, last := none }) =>
      decide (mode' = mode)
    | _, _ => false

/-- The second task has just put its take on the bus. -/
def Config.takesPing? (c : Config) : Bool :=
  match c.world.past 0 with
  | .triggered 2 y none (.take .bus (.type "PING")) :: _ =>
    (c.world.engine 0).bus.takers.any fun k => decide (k.effect = y)
  | _ => false

/-- The second task is live, and was not ended. -/
def Config.watchesOn? (c : Config) : Bool :=
  ((c.world.core 0).posture 2).any (fun p => !p.status.isTerminal) &&
  (c.world.past 0).all fun
    | .bodyDropped 2 => false
    | _ => true

theorem Config.of_watchesPing? {c : Config} {mode : WatchMode} (h : c.watchesPing? mode = true) :
    ∃ n plan, c.world.task? 0 2 = some n ∧ n.status = .created ∧
      n.body = some ((Program.watcher plan).start 2) ∧ plan.mode = mode ∧
      plan.pattern = .type "PING" := by
  obtain ⟨n, hn, h⟩ := (Option.any_eq_true ..).1 h
  split at h
  · rename_i hs hb
    exact ⟨n, _, hn, hs, hb, of_decide_eq_true h, rfl⟩
  · cases h

theorem Config.of_takesPing? {c : Config} (h : c.takesPing? = true) :
    ∃ y, .triggered 2 y none (.take .bus (.type "PING")) ∈ c.world.past 0 ∧ c.world.OnBus ⟨0, y⟩ := by
  unfold Config.takesPing? at h
  split at h
  · rename_i y _ hpast
    obtain ⟨k, hk, he⟩ := List.any_eq_true.1 h
    exact ⟨y, hpast ▸ List.mem_cons_self, k, hk, of_decide_eq_true he⟩
  · cases h

theorem Config.of_watchesOn? {c : Config} (h : c.watchesOn? = true) :
    (c.world.core 0).Live 2 ∧ .bodyDropped 2 ∉ c.world.past 0 := by
  simp only [Config.watchesOn?, Bool.and_eq_true, List.all_eq_true] at h
  obtain ⟨p, hp, hterm⟩ := (Option.any_eq_true ..).1 h.1
  exact ⟨⟨p, hp, by simpa using hterm⟩, fun hm => by simpa using h.2 _ hm⟩

theorem Scenario.misses_nothing_pingsTwice : ∃ d c₀ c plan as workers,
    (pingsTwice .every).Visits d ∧ d.Precedes c₀ ∧ c₀.Spreads 0 as c ∧
      c₀.Staffs 0 2 plan as c workers [] ∧ workers.length = 2 := by
  have h : (((pingsTwice .every).during? (.run 0 { source := .named "pings" } none) 7).any fun d =>
      d.watchesPing? .every && (d.run 7).takesPing? && ((d.run 7).run 200).watchesOn? &&
        !(((d.run 7).run 200).world.engine 0).driving &&
        (forksOf 2 ((d.run 7).world.past 0)).isEmpty &&
        decide ((forksOf 2 (((d.run 7).run 200).world.past 0)).length = 2)) = true := by
    decide +kernel
  obtain ⟨d, hd, h⟩ := (Option.any_eq_true ..).1 h
  simp only [Bool.and_eq_true, decide_eq_true_eq, Bool.not_eq_true'] at h
  obtain ⟨⟨⟨⟨⟨hwatches, htakes⟩, hon⟩, hidle⟩, hnone⟩, htwo⟩ := h
  have hv : (pingsTwice .every).Visits d := Visits.of_during? hd
  obtain ⟨n, plan, hn, hs, hb, -, hpattern⟩ := Config.of_watchesPing? hwatches
  obtain ⟨y, htake, hbus⟩ := Config.of_takesPing? htakes
  obtain ⟨hl, hdrop⟩ := Config.of_watchesOn? hon
  obtain ⟨as, hrun⟩ := ((Config.Precedes.refl (c := d.run 7)).run 200).spreads (i := 0)
  obtain ⟨workers, due, hstaffs, -, hdue⟩ :=
    hv.misses_nothing hn hs hb (.run .refl 7) (hpattern ▸ htake) hbus hrun hl hdrop
  obtain rfl := hdue (Or.inr (Or.inl hidle))
  obtain ⟨es, hes, hforks, -⟩ := id hstaffs.past
  refine ⟨d, _, _, _, as, workers, hv, .run .refl 7, hrun, hstaffs, ?_⟩
  rw [hes, forksOf_append, List.isEmpty_iff.1 hnone, List.nil_append, hforks, List.length_map] at htwo
  exact htwo

end SagaMachine
