import Mathlib.Order.WellFounded
import SagaMachine.Proofs.Sleepers
import SagaMachine.Proofs.Watchers

/-!
# Watchers that wait

Between its steps a watcher waits to be started, stands aside, or is parked on its take. What is
broadcast meets it in the last case only, and wakes it if its pattern accepts it
(`Scenario.Visits.tends_told`); then nothing is broadcast until it was polled, since everything that
is scheduled goes first (`Scenario.Visits.tends_parked`, `Scenario.Visits.tends_aside`).
-/

namespace SagaMachine

section

variable {s : Scenario} {c c' : Config} {w : World} {x y : Instr} {rest G : List Instr}
  {i : MiddlewareId} {t u : TaskId} {b : WatcherBody} {q : Concern} {r : Reaction} {k k' : Core}
  {past es : List Event} {D : List TaskId}

theorem Begins.turn_of_mem {expected : Option EffectId} {signal : Option Signal}
    (h : Begins i k u expected signal k' G) (hy : y ∈ G) (ht : y.turn? = some t) :
    u = t ∧ ∃ p, k.posture t = some p ∧ p.pending = expected := by
  cases h with
  | skip => cases hy
  | poll hp _ hpend | leave hp _ hpend =>
    cases List.mem_singleton.1 hy
    cases ht
    exact ⟨rfl, _, hp, hpend⟩

/--
The step of a task begins with a reaction for it, when it is not parked, or with a settlement, when it
is.
-/
theorem Does.steps_of_turn (h : Does i past x k k' G D es) (hy : y ∈ G) (ht : y.turn? = some t)
    (hx : x.turn? ≠ some t) :
    (∃ r, r.Steps t ∧ x = .perform i (.reaction r) ∧ ∃ p, k.posture t = some p ∧ p.pending = none) ∨
      ∃ z signal, x = .perform i (.reaction (.settle z signal)) ∧
        ∃ p, k.posture t = some p ∧ p.pending ≠ none := by
  have hcascades {cs : List Cascade} : y ∉ cs.map (Instr.cascade i) := fun hm => by
    obtain ⟨c, -, rfl⟩ := List.mem_map.1 hm
    cases ht
  have hsame {z : Instr} (hz : z.turn? = none ∨ z.turn? = x.turn?) : y ∉ [z] := fun hm => by
    rw [← List.mem_singleton.1 hm] at hz
    rcases hz with hz | hz
    · cases hz.symm.trans ht
    · exact hx (hz.symm.trans ht)
  cases h with
  | start h =>
    obtain ⟨rfl, hp⟩ := h.turn_of_mem hy ht
    exact Or.inl ⟨.start _, rfl, rfl, hp⟩
  | resume h =>
    obtain ⟨rfl, hp⟩ := h.turn_of_mem hy ht
    exact Or.inl ⟨.resume _ _, rfl, rfl, hp⟩
  | wake _ _ h =>
    obtain ⟨rfl, p, hp, hpend⟩ := h.turn_of_mem hy ht
    exact Or.inr ⟨_, _, rfl, p, hp, by simp [hpend]⟩
  | errand hG =>
    rcases hG with rfl | ⟨g, rfl, hg⟩
    · cases hy
    · refine absurd hy (hsame (Or.inl ?_))
      cases g with
      | emit | forwarded | schedule => rfl
      | _ => exact hg.elim
  | poll hg | advance hg =>
    refine absurd hy (hsame (Or.inr ?_))
    rename_i g
    cases g with
    | advance | polled => exact congrArg (some ·.task) hg
    | _ => exact hg.elim
  | next | triggerCancels =>
    rcases List.mem_cons.1 hy with rfl | hy
    · cases ht
    · exact absurd hy (hsame (by simp [Instr.turn?]))
  | abort =>
    rcases List.mem_append.1 hy with hy | hy
    · obtain ⟨c, -, rfl⟩ := List.mem_map.1 hy
      cases ht
    · exact absurd hy (hsame (Or.inl rfl))
  | abortDone | conclude | cascadeComplete | cancelledAll => exact absurd hy hcascades
  | _ =>
    first
    | exact absurd hy List.not_mem_nil
    | exact absurd hy (hsame (Or.inr rfl))
    | exact absurd hy (hsame (Or.inl rfl))

/-- The step of a task that is not parked begins with a reaction for it. -/
theorem Does.begins_of_turn (h : Does i past x k k' G D es) (hy : y ∈ G) (ht : y.turn? = some t)
    (hx : x.turn? ≠ some t) (hp : ∀ p, k.posture t = some p → p.pending = none) :
    ∃ r, r.Steps t ∧ x = .perform i (.reaction r) := by
  rcases h.steps_of_turn hy ht hx with ⟨r, hr, rfl, -⟩ | ⟨_, _, -, p, hq, hpend⟩
  · exact ⟨r, hr, rfl⟩
  · exact absurd (hp p hq) hpend

/-- How the step of a task begins. -/
def Body.opens (turn : Turn) (body : Body) (signal : Option Signal) : Instr :=
  match opening signal with
  | some a => .poll turn body a
  | none => .leave turn body .ended

/-- The step of a live task whose body is at rest begins. -/
theorem World.beginTurn_of_rests {body : Body} {pending : Option EffectId}
    (hq : w.rests i t = some (body, pending)) (hl : (w.core i).Live t) (signal : Option Signal) :
    ∃ w', w.beginTurn i t pending signal = ⟨[body.opens ⟨i, t⟩ signal], w'⟩ ∧
      w'.past i = w.past i := by
  obtain ⟨n, hn, hb, rfl⟩ := World.rests_eq_some.1 hq
  have hs : n.status.isTerminal = false := by
    obtain ⟨p, hp, hs⟩ := hl
    obtain ⟨n', hn', rfl⟩ :=
      Option.map_eq_some_iff.1 (show ((w.engine i).tasks.get? t).map _ = some p from hp)
    cases hn.symm.trans hn'
    exact hs
  let w' := (w.setTask i t fun n => { n with body := none, status := .running }).setEngine i
    fun e => { e with current := some t }
  refine ⟨w', ?_, rfl⟩
  cases signal with
  | none => simp [World.beginTurn, hn, hs, hb, Body.opens, opening, w']
  | some signal => cases signal <;> simp [World.beginTurn, hn, hs, hb, Body.opens, opening, w']

namespace Scenario.Visits

/-- The body of a task is not at rest within its own step. -/
theorem not_rests_in_turn {p : Body × Option EffectId} (h : s.Visits c) (hi : c.world.Has i)
    (hy : y ∈ framesOf i c.todo) (ht : y.turn? = some t) : c.world.rests i t ≠ some p := by
  intro hq
  have hs := h.sound hi
  obtain ⟨p, hp, hb⟩ := World.hasBody_iff.2 ⟨_, hq⟩
  have hcur : (c.world.core i).current = some t := hs.framed.stack.turn_unique hy ht
  have hnone := ((hs.orderly.driver hcur).1.2 p hp).1
  rw [hb] at hnone
  cases hnone

/-- What is due to a task at rest was due to it before. -/
theorem due_before {p : Body × Option EffectId} (h : s.Visits ⟨x :: rest, w⟩) (hi : w.Has i)
    (hc : Config.step ⟨x :: rest, w⟩ = some c') (hq : w.rests i t = some p) (hr : r.Steps t)
    (hdue : c'.Due i r) : Config.Due ⟨x :: rest, w⟩ i r := by
  rcases h.owes_steps hi hc hr hdue with hdue | ⟨b, signal, rfl, -⟩ | rfl
  · exact hdue
  · exact absurd hq (h.not_rests_in_turn hi (y := .leave ⟨i, t⟩ b (.yielded signal))
      (by simp [framesOf_cons, Instr.owner?]) rfl)
  · obtain ⟨p, hp, -⟩ := World.hasBody_iff.2 ⟨_, hq⟩
    exact absurd hr (Nat.ne_of_gt ((h.sound hi).orderly.tasks hp).number)

/-- A task that is not parked stays at rest until a reaction for it is performed. -/
theorem stays_or_begins {body : Body} (h : s.Visits ⟨x :: rest, w⟩) (hi : w.Has i)
    (hc : Config.step ⟨x :: rest, w⟩ = some c') (hq : w.rests i t = some (body, none))
    (hl : (c'.world.core i).Live t) : c'.world.rests i t = some (body, none) ∨
      ∃ r, r.Steps t ∧ Config.Due ⟨x :: rest, w⟩ i r ∧ x = .perform i (.reaction r) := by
  rcases h.rests_step hi hq hc hl with hstays | ⟨next, hn, hc', hown, z, hz, hzt⟩
  · exact Or.inl hstays
  · obtain ⟨next', hn', rfl, hm⟩ := Config.meets_of_step h.knows hi hc
    cases hn.symm.trans hn'
    cases hm with
    | own _ _ hd =>
      obtain ⟨r, hr, rfl⟩ := hd.begins_of_turn hz hzt
        (fun hx => h.not_rests_in_turn hi (y := x) (by simp [framesOf_cons, hown]) hx hq)
        (fun p hp => by
          obtain ⟨n, hn, -, hpend⟩ := World.rests_eq_some.1 hq
          rw [World.posture_core, hn] at hp
          cases hp
          exact hpend)
      exact Or.inr ⟨r, hr, Or.inr (Or.inr (by simp [framesOf_cons, Instr.owner?])), rfl⟩
    | foreign ho => exact absurd hown ho
    | drops hx =>
      rw [hx] at hown
      cases hown
    | dies hx =>
      rw [hx] at hown
      cases hown

/-- A watcher that was not polled yet waits for its first step. -/
theorem tends_fresh (h : s.Visits ⟨x :: rest, w⟩) (hi : w.Has i)
    (hc : Config.step ⟨x :: rest, w⟩ = some c') (hm : b.Minds i)
    (hq : w.rests i t = some (.watcher b, none)) (hp : b.phase = .fresh)
    (only : ∀ r, r.Steps t → Config.Due ⟨x :: rest, w⟩ i r → r = .start t)
    (hl : (w.core i).Live t) (hl' : (c'.world.core i).Live t) :
    Config.Tends ⟨x :: rest, w⟩ i t b { before := b.last.map (·.id) } c' [] b
      { before := b.last.map (·.id) } := by
  have hturn {z : Instr} (hz : z.turn? = some t) (ho : z.owner? = some i) : x ≠ z := by
    rintro rfl
    exact h.not_rests_in_turn hi (y := x) (by simp [framesOf_cons, ho]) hz hq
  refine h.tends_still hi hc hm (fun b a => hturn rfl rfl) (fun b nests e => hturn rfl rfl)
    (Or.inl hp) ?_
  rcases h.stays_or_begins hi hc hq hl' with hstays | ⟨r, hr, hdue, rfl⟩
  · exact .fresh hstays hp fun r hr hdue => only r hr (h.due_before hi hc hq hr hdue)
  · obtain rfl := only r hr hdue
    obtain ⟨w', hexec, -⟩ := World.beginTurn_of_rests hq hl none
    have hstep : Config.step ⟨.perform i (.reaction (.start t)) :: rest, w⟩ =
        some ⟨.poll ⟨i, t⟩ (.watcher b) none :: rest, w'⟩ := by
      simp [Config.step, Instr.exec, World.execPerform, hexec, Body.opens, opening,
        Config.followedBy]
    cases hstep.symm.trans hc
    exact .turn (by simp [framesOf_cons, Instr.owner?]) (.starts hp)

/-- No action is broadcast while a task stands aside. -/
theorem not_forwarded_of_aside {body : Body} (h : s.Visits ⟨x :: rest, w⟩)
    (hq : w.rests i t = some (body, none)) (hl : (w.core i).Live t)
    (hstart : ¬ Config.Due ⟨x :: rest, w⟩ i (.start t)) (a : Action) (sender : Sender) :
    x ≠ .forwarded i a sender := by
  rintro rfl
  have ha : w.Alive i := h.alive_of_owner rfl
  have hhushed := h.hushed ha (y := .forwarded i a sender) List.mem_cons_self rfl
  obtain ⟨p, hp, hs⟩ := hl
  obtain ⟨n, hn, hbody, hpend⟩ := World.rests_eq_some.1 hq
  have hpn : p = n.posture := by
    rw [World.posture_core, hn] at hp
    exact (Option.some.inj hp).symm
  subst hpn
  have hpn : n.posture.pending = none := hpend
  have hbn : n.posture.hasBody = true := by simp [TaskNode.posture, hbody]
  cases ((h.sound ha.has).orderly.tasks hp).standing hs with
  | created _ _ _ _ hdue => exact hstart hdue
  | yielded _ _ _ _ hdue => exact hhushed.aside t _ hdue
  | parked _ _ hx => cases hpn.symm.trans hx
  | running _ hb => cases hbn.symm.trans hb
  | waiting hb => cases hbn.symm.trans hb

/-- A watcher that stands aside waits for its next step. -/
theorem tends_aside {signal : Signal} (h : s.Visits ⟨x :: rest, w⟩) (hi : w.Has i)
    (hc : Config.step ⟨x :: rest, w⟩ = some c') (hm : b.Minds i)
    (hq : w.rests i t = some (.watcher b, none)) (hh : b.Hears i signal q) (hne : signal ≠ .ended)
    (only : ∀ r, r.Steps t → Config.Due ⟨x :: rest, w⟩ i r → r = .resume t signal)
    (hl : (w.core i).Live t) (hl' : (c'.world.core i).Live t) :
    Config.Tends ⟨x :: rest, w⟩ i t b q c' [] b q := by
  have hturn {z : Instr} (hz : z.turn? = some t) (ho : z.owner? = some i) : x ≠ z := by
    rintro rfl
    exact h.not_rests_in_turn hi (y := x) (by simp [framesOf_cons, ho]) hz hq
  refine h.tends_still hi hc hm (fun b a => hturn rfl rfl) (fun b nests e => hturn rfl rfl)
    (Or.inr (h.not_forwarded_of_aside hq hl fun hdue => by cases only (.start t) rfl hdue)) ?_
  rcases h.stays_or_begins hi hc hq hl' with hstays | ⟨r, hr, hdue, rfl⟩
  · exact .aside hstays hh hne fun r hr hdue => only r hr (h.due_before hi hc hq hr hdue)
  · obtain rfl := only r hr hdue
    obtain ⟨a, ha⟩ : ∃ a, opening (some signal) = some (some a) := by
      cases hh with
      | ended => exact absurd rfl hne
      | action | cleared | forked => exact ⟨_, rfl⟩
    obtain ⟨w', hexec, -⟩ := World.beginTurn_of_rests hq hl (some signal)
    have hstep : Config.step ⟨.perform i (.reaction (.resume t signal)) :: rest, w⟩ =
        some ⟨.poll ⟨i, t⟩ (.watcher b) (some a) :: rest, w'⟩ := by
      simp [Config.step, Instr.exec, World.execPerform, hexec, Body.opens, ha, Config.followedBy]
    cases hstep.symm.trans hc
    exact .turn (by simp [framesOf_cons, Instr.owner?]) (.polls hh ha)

end Scenario.Visits

/-! ## Parked watchers -/

theorem Bus.mem_wokenBy {v : Value} {ts : List BusTaker} {b : BusTaker} (h : b ∈ Bus.wokenBy v ts) :
    b ∈ ts ∧ b.pattern.accepts v = true := by
  obtain ⟨k, hk, rfl⟩ := List.mem_map.1 h
  exact ⟨List.get_mem ts k, (of_decide_eq_true (List.mem_filter.1 hk).2).1⟩

/-- Of a task with a taker that accepts a value one is woken. -/
theorem Bus.exists_wokenBy {v : Value} {ts : List BusTaker} {b : BusTaker} (hb : b ∈ ts)
    (ha : b.pattern.accepts v = true) : ∃ b' ∈ Bus.wokenBy v ts, b'.owner = b.owner := by
  obtain ⟨k, rfl⟩ := List.mem_iff_get.1 hb
  -- the earliest of the takers in question
  obtain ⟨j, ⟨ho, hj⟩, hmin⟩ := (measure fun j : Fin ts.length => j.val).wf.has_min
    {j | (ts.get j).owner = (ts.get k).owner ∧ (ts.get j).pattern.accepts v = true} ⟨k, rfl, ha⟩
  refine ⟨ts.get j, List.mem_map_of_mem (List.mem_filter.2 ⟨List.mem_finRange j, ?_⟩), ho⟩
  refine decide_eq_true ⟨hj, fun l hl hlo => ?_⟩
  by_contra hv
  exact hmin l ⟨hlo.trans ho, by simpa using hv⟩ hl

section

variable {z : EffectId} {F : List Instr} {signal : Signal} {p : Pattern} {body : Body}

/-- An action that is broadcast is brought to the takes that it wakes. -/
theorem World.brings_broadcast_iff (hi : w.Has i) (a : Action) :
    Config.Brings ⟨F, w.broadcast i a⟩ ⟨i, z⟩ signal ↔ Config.Brings ⟨F, w⟩ ⟨i, z⟩ signal ∨
      signal = .value (.action a) ∧
        ∃ k ∈ Bus.wokenBy (.action a) (w.engine i).bus.takers, k.effect = z := by
  have hpend : .settle z signal ∈ (w.broadcast i a).pending i ↔ .settle z signal ∈ w.pending i ∨
      signal = .value (.action a) ∧
        ∃ k ∈ Bus.wokenBy (.action a) (w.engine i).bus.takers, k.effect = z := by
    simp only [World.pending, (World.engine_broadcast hi a).1, Engine.scheduling, List.mem_append,
      List.mem_map, Reaction.settle.injEq]
    grind
  simp only [Config.Brings, hpend]
  exact or_right_comm

namespace Scenario.Visits

/-- A task parked on a leaf has nothing else pending. -/
theorem only_pending (h : s.Visits c) (ha : c.world.Alive i)
    (hq : c.world.rests i t = some (body, some z)) (hleaf : LeafName (c.world.past i) z)
    (hloose : looseOf (framesOf i c.todo) = []) {v : EffectId} {wait : Wait}
    (hv : (c.world.engine i).waits.get? v = some wait) (ht : wait.task = t) : v = z := by
  obtain ⟨n, hn, -, hpend⟩ := World.rests_eq_some.1 hq
  have hT : Tabled (c.world.core i) (framesOf i c.todo) (c.world.past i) :=
    (h.sound ha.has).tabled (Config.alive_iff.2 ha)
  have hF : Waits.Forest (c.world.engine i).waits [] .task := hloose ▸ hT.forest
  obtain ⟨r, rw, hr, hl, hrt, hu⟩ := hF.exists_root hv
  obtain ⟨p, hp, -, hpr⟩ := hT.rooted hr hl (by simp [hloose])
  rw [hrt, ht, World.posture_core, hn] at hp
  cases hp
  cases hpend.symm.trans hpr
  exact hu.eq_of_leaf hr (hT.leaf hr hleaf)

/-- A task parked on a leaf is in no other way concerned than by its settlement. -/
theorem stays_parked (h : s.Visits ⟨x :: rest, w⟩) (ha : w.Alive i)
    (hc : Config.step ⟨x :: rest, w⟩ = some c') (hq : w.rests i t = some (body, some z))
    (hleaf : LeafName (w.past i) z) (hx : ∀ signal, x ≠ .perform i (.reaction (.settle z signal)))
    (hl : (c'.world.core i).Live t) : c'.world.rests i t = some (body, some z) := by
  have hi := ha.has
  rcases h.rests_step hi hq hc hl with hstays | ⟨next, hn, rfl, hown, y, hy, hyt⟩
  · exact hstays
  · exfalso
    obtain ⟨n, hn', hbody, hpend⟩ := World.rests_eq_some.1 hq
    have hp : (w.core i).posture t = some n.posture := by
      rw [World.posture_core, hn']
      rfl
    have hb : n.posture.hasBody = true := by simp [TaskNode.posture, hbody]
    have ho := (h.sound hi).orderly
    have hsleeps : (w.core i).Sleeps t z :=
      { born := (ho.tasks hp).number
        away := fun hcur => by
          have hnone := ((ho.driver hcur).1.2 _ hp).1
          rw [hb] at hnone
          cases hnone
        parked := fun hq => by
          cases hp.symm.trans hq
          exact Or.inr ⟨hb, hpend⟩ }
    have haway := (h.sleeps ha hleaf hsleeps hx (Or.inl hown) hc).away
    have hmem : y ∈ framesOf i (next.followedBy rest).todo := by
      rw [show (next.followedBy rest).todo = next.todo ++ rest from rfl, framesOf_append]
      exact List.mem_append_left _ hy
    have hi' := (h.knows.has_iff hc i).2 hi
    exact haway (((h.step hc).sound hi').framed.stack.turn_unique hmem hyt)

/-- What a task is parked on is pending. -/
theorem wait_of_parked (h : s.Visits c) (hi : c.world.Has i)
    (hq : c.world.rests i t = some (body, some z)) (hl : (c.world.core i).Live t) :
    ∃ wait, (c.world.engine i).waits.get? z = some wait ∧ wait.task = t ∧ wait.link = .task := by
  obtain ⟨n, hn, hbody, hpend⟩ := World.rests_eq_some.1 hq
  obtain ⟨p, hp, hs⟩ := hl
  have hp₀ := hp
  rw [World.posture_core, hn] at hp₀
  cases hp₀
  have hb : n.posture.hasBody = true := by simp [TaskNode.posture, hbody]
  have hpend : n.posture.pending = some z := hpend
  cases ((h.sound hi).orderly.tasks hp).standing hs with
  | created _ _ hnone | yielded _ _ hnone => cases hnone.symm.trans hpend
  | parked _ _ hx _ hw ht hlink =>
    cases hx.symm.trans hpend
    exact ⟨_, hw, ht, hlink⟩
  | running _ hnone | waiting hnone => cases hnone.symm.trans hb

/-- The takers that a parked task has are those of the take that it is parked on. -/
theorem effect_of_taker (h : s.Visits c) (ha : c.world.Alive i)
    (hq : c.world.rests i t = some (body, some z)) (hleaf : LeafName (c.world.past i) z)
    (hloose : looseOf (framesOf i c.todo) = []) {k : BusTaker}
    (hk : k ∈ (c.world.engine i).bus.takers) (ho : k.owner = t) : k.effect = z := by
  obtain ⟨u, hclaims⟩ := (h.wired.fits (r := ⟨i, k.effect⟩) ha).backed (.bus hk rfl)
  obtain ⟨-, link, hwait⟩ := id hclaims
  exact h.only_pending ha hq hleaf hloose hwait ((h.wired.numbered.owner hk hclaims).trans ho)

/-- A take that a task is parked on is woken by an action if its pattern accepts it. -/
theorem woken_iff (h : s.Visits c) (ha : c.world.Alive i)
    (hq : c.world.rests i t = some (body, some z)) (htake : c.world.TakesFrom ⟨i, z⟩ .bus p)
    (hloose : looseOf (framesOf i c.todo) = []) (hon : c.world.OnBus ⟨i, z⟩)
    (hl : (c.world.core i).Live t) (v : Value) :
    (∃ k ∈ Bus.wokenBy v (c.world.engine i).bus.takers, k.effect = z) ↔ p.accepts v = true := by
  have hi := ha.has
  have hleaf : LeafName (c.world.past i) z := by
    obtain ⟨u, q, hm⟩ := htake.triggered
    exact ⟨u, q, _, hm, rfl⟩
  obtain ⟨wait, hwait, ht, -⟩ := h.wait_of_parked hi hq hl
  have hpattern {k : BusTaker} (hk : k ∈ (c.world.engine i).bus.takers) (he : k.effect = z) :
      k.pattern = p ∧ k.owner = t := by
    have hT : Tabled (c.world.core i) (framesOf i c.todo) (c.world.past i) :=
      (h.sound hi).tabled (Config.alive_iff.2 ha)
    obtain ⟨q, hm⟩ := (h.knows.world.engine i).bus k hk
    cases h.issued_once (r := ⟨i, z⟩) htake ⟨hi, k.owner, q, he ▸ hm⟩
    have hclaims : c.world.Claims ⟨i, k.effect⟩ wait.task wait.kind :=
      ⟨hT.leaf hwait hleaf, wait.link, by rw [he]; exact hwait⟩
    exact ⟨rfl, (h.wired.numbered.owner hk hclaims).symm.trans ht⟩
  constructor
  · rintro ⟨k, hk, he⟩
    obtain ⟨hm, hv⟩ := Bus.mem_wokenBy hk
    rw [← (hpattern hm he).1]
    exact hv
  · intro hv
    obtain ⟨k, hk, he⟩ := hon
    obtain ⟨hkp, hko⟩ := hpattern hk he
    obtain ⟨k', hk', ho⟩ := Bus.exists_wokenBy hk (v := v) (by rw [hkp]; exact hv)
    exact ⟨k', hk', h.effect_of_taker ha hq hleaf hloose (Bus.mem_wokenBy hk').1 (ho.trans hko)⟩

/-- An action that the host lets through is brought to the takes that it wakes. -/
theorem brings_forwarded {a : Action} {sender : Sender} {m : Middleware}
    (h : s.Visits ⟨.forwarded i a sender :: rest, w⟩) (hm : w.middlewares.get? i = some m)
    (hc : Config.step ⟨.forwarded i a sender :: rest, w⟩ = some c')
    (htake : w.TakesFrom ⟨i, z⟩ .bus p)
    (hno : ∀ signal, ¬ Config.Brings ⟨.forwarded i a sender :: rest, w⟩ ⟨i, z⟩ signal) :
    c'.Brings ⟨i, z⟩ signal ↔ (m.host.answer a).isOk = true ∧ signal = .value (.action a) ∧
      ∃ k ∈ Bus.wokenBy (.action a) (w.engine i).bus.takers, k.effect = z := by
  have hi : w.Has i := ⟨m, hm⟩
  have hs : ¬ (Instr.forwarded i a sender).Settles ⟨i, z⟩ := fun hs =>
    have ⟨_, hb⟩ := h.brings_of_settles htake trivial List.mem_cons_self hs
    hb
  have hrest : ¬ Config.Brings ⟨rest, w⟩ ⟨i, z⟩ signal := fun hb =>
    hno signal (Config.brings_cons.2 (Or.inr hb))
  have hstep : Config.step ⟨.forwarded i a sender :: rest, w⟩ =
      some ((w.execForwarded i a sender).followedBy rest) := rfl
  cases hstep.symm.trans hc
  cases hr : m.host.answer a with
  | error f =>
    have hexec : w.execForwarded i a sender = w.finishEmit i a sender (.error f) := by
      simp only [World.execForwarded, hm]
      simp only [Host.answer] at hr
      split at hr <;> simp_all
    rw [hexec]
    refine iff_of_false (fun hb => hrest ?_) (fun hb => by cases hb.1)
    exact (World.Mum.finishEmit (.refl ⟨i, z⟩ w) hs _).brings_iff.1 hb
  | ok u =>
    have hexec : w.execForwarded i a sender =
        ((w.reduceHost i a).broadcast i a).finishEmit i a sender (.ok ()) := by
      simp only [World.execForwarded, hm]
      simp only [Host.answer] at hr
      split at hr <;> simp_all
    have hu : World.Untouched i w (w.reduceHost i a) := World.untouched_reduceHost a
    rw [hexec]
    refine (World.Mum.finishEmit (.refl ⟨i, z⟩ _) hs _).brings_iff.trans ?_
    rw [World.brings_broadcast_iff (hu.has.2 hi), hu.engine, or_iff_right]
    · exact (and_iff_right rfl).symm
    · exact fun hb => hrest ((Config.brings_untouched hu).1 hb)

end Scenario.Visits

/-- A task that is parked on an effect begins its step when this effect settles. -/
theorem World.perform_settle {wait : Wait} (hi : w.Has i)
    (hq : w.rests i t = some (body, some z)) (hl : (w.core i).Live t)
    (hw : (w.engine i).waits.get? z = some wait) (ht : wait.task = t) (hlink : wait.link = .task)
    (signal : Signal) :
    ∃ w', w.execPerform i (.reaction (.settle z signal)) =
      ⟨[body.opens ⟨i, t⟩ (some signal)], w'⟩ ∧ w'.past i = .settled z signal :: w.past i := by
  have hsettle : Waits.settle (w.engine i).waits z signal =
      ⟨[.settled z signal], some ⟨t, z, signal⟩, (w.engine i).waits.erase z⟩ := by
    simp only [Waits.settle, hw, hlink, ht, Waits.climb, Waits.Climb.after, List.append_nil]
  let w₁ := (w.settleWait i z signal).2
  have hwake : (w.settleWait i z signal).1 = some ⟨t, z, signal⟩ := by
    simp only [World.settleWait, hsettle]
  have hpast : w₁.past i = .settled z signal :: w.past i := by
    simp only [w₁, World.settleWait, hsettle]
    exact World.past_record _
  have hcore : w₁.core i = { w.core i with waits := (w.engine i).waits.erase z } := by
    simp only [w₁, World.settleWait, hsettle]
    show Engine.core ((w.setEngine i fun e =>
      { e with waits := (w.engine i).waits.erase z }).engine i) = _
    rw [World.engine_setEngine hi]
    rfl
  have hl₁ : (w₁.core i).Live t := hcore ▸ hl
  have hq₁ : w₁.rests i t = some (body, some z) :=
    (congrFun (World.rests_settleWait z signal) t).trans hq
  obtain ⟨w', hexec, hpast'⟩ := World.beginTurn_of_rests hq₁ hl₁ (some signal)
  refine ⟨w', ?_, hpast'.trans hpast⟩
  simp only [World.execPerform, hwake]
  exact hexec

namespace Scenario.Visits

/-- A watcher that is parked is told of an action. -/
theorem tends_told {a : Action} {sender : Sender}
    (h : s.Visits ⟨.forwarded i a sender :: rest, w⟩)
    (hc : Config.step ⟨.forwarded i a sender :: rest, w⟩ = some c') (hm : b.Minds i)
    (hq : w.rests i t = some (.watcher b, some z)) (hp : b.phase = .taking)
    (takes : w.TakesFrom ⟨i, z⟩ .bus b.plan.pattern)
    (hno : ∀ signal, ¬ Config.Brings ⟨.forwarded i a sender :: rest, w⟩ ⟨i, z⟩ signal)
    (hl : (w.core i).Live t) (hl' : (c'.world.core i).Live t) :
    ∃ q', Config.Tends ⟨.forwarded i a sender :: rest, w⟩ i t b ⟨[], [], b.last.map (·.id)⟩ c' [] b
      q' := by
  have ha : w.Alive i := h.alive_of_owner rfl
  have hi := ha.has
  obtain ⟨m, hm'⟩ := hi
  have hi := ha.has
  have hleaf : LeafName (w.past i) z := by
    obtain ⟨u, q, hm⟩ := takes.triggered
    exact ⟨u, q, _, hm, rfl⟩
  have takes' : c'.world.TakesFrom ⟨i, z⟩ .bus b.plan.pattern :=
    h.issued_precedes (.step .refl hc) takes
  have hstays := h.stays_parked ha hc hq hleaf (by simp) hl'
  obtain ⟨es, hes, hev⟩ := h.idle_step hi hc (t := t) (by simp) (by simp)
  obtain ⟨hforks, hactions, hchildren⟩ := lists_of_idle hev
  -- the take is still on the bus
  have hon : w.OnBus ⟨i, z⟩ := by
    obtain ⟨wait, hw, ht, -⟩ := h.wait_of_parked hi hq hl
    have hT : Tabled (w.core i) _ (w.past i) := (h.sound hi).tabled (Config.alive_iff.2 ha)
    have hclaims : w.Claims ⟨i, z⟩ wait.task wait.kind := ⟨hT.leaf hw hleaf, wait.link, hw⟩
    obtain ⟨id, hkind⟩ := h.source_of_take ha takes hclaims
    rw [hkind] at hclaims
    rcases (h.wired.fits (r := ⟨i, z⟩) ha).served (fun d hd => by cases hd) hclaims with hreg | howes
    · exact hreg.onBus
    · obtain ⟨signal, hb⟩ := h.brings_of_owes takes trivial howes
      exact absurd hb (hno _)
  have hloose : looseOf (framesOf i (.forwarded i a sender :: rest)) = [] := by
    have hbelow : ∀ y ∈ framesOf i rest, y = .drain i := h.drain_below (t := t) hi rfl (by
      cases sender with
      | caller => exact Or.inr (Or.inl trivial)
      | effect | nobody => exact Or.inl trivial)
    refine List.flatMap_eq_nil_iff.2 fun y hy => ?_
    rw [framesOf_cons, if_pos (show (Instr.forwarded i a sender).owner? = some i from rfl)] at hy
    rcases List.mem_cons.1 hy with rfl | hy
    · rfl
    · rw [hbelow y hy]
      rfl
  have hbrings (signal : Signal) : c'.Brings ⟨i, z⟩ signal ↔ _ :=
    h.brings_forwarded hm' hc takes hno
  have hwoken := h.woken_iff ha hq takes hloose hon hl (.action a)
  have hbroadcasts : Config.broadcasts ⟨.forwarded i a sender :: rest, w⟩ i =
      if (m.host.answer a).isOk then [a] else [] := by
    simp [Config.broadcasts, hm']
  have tends (due : List Action)
      (hdue : (Config.broadcasts ⟨.forwarded i a sender :: rest, w⟩ i).filter
        (fun a => b.plan.pattern.accepts (.action a)) = due)
      (hw : c'.Watches i t b ⟨due, [], b.last.map (·.id)⟩) :
      Config.Tends ⟨.forwarded i a sender :: rest, w⟩ i t b ⟨[], [], b.last.map (·.id)⟩ c' [] b
        ⟨due, [], b.last.map (·.id)⟩ :=
    ⟨rfl, hm, id, hw, fun _ => hdue, fun _ _ => Or.inl rfl,
      ⟨es, hes, hforks, by simp [hactions], hchildren⟩, by simp⟩
  by_cases htold : (m.host.answer a).isOk = true ∧ b.plan.pattern.accepts (.action a) = true
  · obtain ⟨hok, hacc⟩ := htold
    refine ⟨_, tends [a] (by simp [hbroadcasts, hok, hacc]) (.parked hstays hp takes'
      (fun signal hb => ?_) fun _ => ⟨.value (.action a), (hbrings _).2 ⟨hok, rfl, hwoken.2 hacc⟩⟩)⟩
    obtain ⟨-, rfl, -⟩ := (hbrings _).1 hb
    exact .action hp
  · refine ⟨_, tends [] ?_ (.parked hstays hp takes' (fun signal hb => ?_) (absurd rfl))⟩
    · rw [hbroadcasts]
      split
      · rename_i hok
        have hacc : b.plan.pattern.accepts (.action a) = false := by
          by_contra hacc
          exact htold ⟨hok, by simpa using hacc⟩
        simp [hacc]
      · rfl
    · obtain ⟨hok, -, hk⟩ := (hbrings _).1 hb
      exact absurd ⟨hok, hwoken.1 hk⟩ htold

/-- A watcher that is parked waits for what its take settles with. -/
theorem tends_parked {due : List Action} (h : s.Visits ⟨x :: rest, w⟩)
    (hc : Config.step ⟨x :: rest, w⟩ = some c') (hm : b.Minds i)
    (hq : w.rests i t = some (.watcher b, some z)) (hp : b.phase = .taking)
    (takes : w.TakesFrom ⟨i, z⟩ .bus b.plan.pattern)
    (hears : ∀ signal, Config.Brings ⟨x :: rest, w⟩ ⟨i, z⟩ signal →
      b.Hears i signal ⟨due, [], b.last.map (·.id)⟩)
    (brought : due ≠ [] → ∃ signal, Config.Brings ⟨x :: rest, w⟩ ⟨i, z⟩ signal)
    (hl : (w.core i).Live t) (hl' : (c'.world.core i).Live t) :
    ∃ q', Config.Tends ⟨x :: rest, w⟩ i t b ⟨due, [], b.last.map (·.id)⟩ c' [] b q' := by
  have ha : w.Alive i := h.alive_of_posture hl.choose_spec.1
  have ha' : c'.world.Alive i := (h.step hc).alive_of_posture hl'.choose_spec.1
  have hi := ha.has
  have hleaf : LeafName (w.past i) z := by
    obtain ⟨u, q, hm⟩ := takes.triggered
    exact ⟨u, q, _, hm, rfl⟩
  have takes' : c'.world.TakesFrom ⟨i, z⟩ .bus b.plan.pattern :=
    h.issued_precedes (.step .refl hc) takes
  have hturn {y : Instr} (hy : y.turn? = some t) (ho : y.owner? = some i) : x ≠ y := by
    rintro rfl
    exact h.not_rests_in_turn hi (y := x) (by simp [framesOf_cons, ho]) hy hq
  have still {q' : Concern} (hf : ∀ a sender, x ≠ .forwarded i a sender)
      (hw : c'.Watches i t b q') : Config.Tends ⟨x :: rest, w⟩ i t b q' c' [] b q' :=
    h.tends_still hi hc hm (fun b a => hturn rfl rfl) (fun b nests e => hturn rfl rfl) (Or.inr hf) hw
  by_cases hx : ∃ signal, x = .perform i (.reaction (.settle z signal))
  · obtain ⟨signal, rfl⟩ := hx
    have hh := hears signal (Config.brings_cons.2 (Or.inl ⟨rfl, rfl⟩))
    obtain ⟨wait, hw, ht, hlink⟩ := h.wait_of_parked hi hq hl
    obtain ⟨w', hexec, -⟩ := World.perform_settle hi hq hl hw ht hlink signal
    have hstep : Config.step ⟨.perform i (.reaction (.settle z signal)) :: rest, w⟩ =
        some ⟨Body.opens ⟨i, t⟩ (.watcher b) (some signal) :: rest, w'⟩ := by
      simp [Config.step, Instr.exec, hexec, Config.followedBy]
    cases hstep.symm.trans hc
    refine ⟨_, still (by simp) ?_⟩
    generalize hqq : (⟨due, [], b.last.map (·.id)⟩ : Concern) = q at hh
    cases hh with
    | action => 
      exact .turn (by simp [framesOf_cons, Instr.owner?, Body.opens, opening]) (.polls (.action hp) rfl)
    | ended => exact .turn (by simp [framesOf_cons, Instr.owner?, Body.opens, opening]) (.ends hp)
    | cleared h' => cases hp.symm.trans h'
    | forked h' => cases hp.symm.trans h'
  · have hx : ∀ signal, x ≠ .perform i (.reaction (.settle z signal)) := fun signal he => hx ⟨_, he⟩
    have hstays := h.stays_parked ha hc hq hleaf hx hl'
    by_cases hb : ∃ signal, Config.Brings ⟨x :: rest, w⟩ ⟨i, z⟩ signal
    · -- what is on its way comes, and nothing else
      obtain ⟨signal, hb⟩ := hb
      have hsilent : w.Unlisted (fun _ => False) ⟨i, z⟩ :=
        .of_silent fun k hk => (h.wired.fits (r := ⟨i, z⟩) ha).silent hk hb.owes
      have hiff (signal' : Signal) : c'.Brings ⟨i, z⟩ signal' ↔
          Config.Brings ⟨x :: rest, w⟩ ⟨i, z⟩ signal' :=
        h.brings_iff hc ha' takes trivial hsilent Instr.not_stirs_of_none hx
      refine ⟨_, still (fun a sender he => ?_) (.parked hstays hp takes'
        (fun signal' hb' => hears _ ((hiff _).1 hb')) fun _ => ⟨signal, (hiff _).2 hb⟩)⟩
      exact (h.hushed ha (y := x) List.mem_cons_self (he ▸ rfl)).takes z _ signal takes hb
    · have hno : ∀ signal, ¬ Config.Brings ⟨x :: rest, w⟩ ⟨i, z⟩ signal := fun signal hb' => hb ⟨_, hb'⟩
      obtain rfl : due = [] := by
        by_contra hdue
        exact hb (brought hdue)
      by_cases hf : ∃ a sender, x = .forwarded i a sender
      · obtain ⟨a, sender, rfl⟩ := hf
        exact h.tends_told hc hm hq hp takes hno hl hl'
      · have hf : ∀ a sender, x ≠ .forwarded i a sender := fun a sender he => hf ⟨_, _, he⟩
        refine ⟨_, still hf (.parked hstays hp takes' (fun signal' hb' => ?_) (absurd rfl))⟩
        rcases h.brings_take hc ha' takes hb' with hold | ⟨-, ⟨a, sender, he, -⟩ | ⟨-, -, rfl⟩⟩
        · exact absurd hold (hno _)
        · exact absurd he (hf _ _)
        · exact .ended hp

end Scenario.Visits

end

end

end SagaMachine
