import SagaMachine.Proofs.Loops
import SagaMachine.Proofs.Vigils

/-!
# The wait table in good order

Wherever a driver is about to perform a job its wait table is a forest of complete combinators
whose roots are what tasks are parked on (`Engine.WaitsFormed`). So a settlement that climbs finds
at every combinator the slot of the member it comes from, with a key and a missing result that are
its own (`Waits.Climbing.Safe`), and the task that it comes to is there and goes on. The same holds
of a member that is being started inside of a combinator (`Nest.Safe`).

Main statement: `Scenario.Visits.waits_safe`.
-/

namespace SagaMachine

namespace Waits

/--
A race can be decided from `slot`, which holds `member`: the slot is one of the race, it has a key
of its own if the race is keyed, and the value of the winner stands under that key.
-/
structure RaceSlot (keys : Option (List String)) (members : List (Option EffectId)) (slot : Nat)
    (member : Option EffectId) : Prop where
  member : members[slot]? = some member
  key : ∀ {ks}, keys = some ks → ks.Nodup ∧ ks.length = members.length ∧ ∃ key,
    ks[slot]? = some key ∧
      ∀ v, raceResult keys members.length slot (.value v) = .value (.map [(key, v)])

/--
An `all` can take in a value at `slot`, which holds `member`: the slot is one of the `all`, its
result is still missing and counted, and if it is the last one that is missing, no result is
missing from the values that are collected.
-/
structure AllSlot (results : List (Option Value)) (members : List (Option EffectId))
    (remaining slot : Nat) (member : Option EffectId) : Prop where
  member : members[slot]? = some member
  result : results[slot]? = some none
  counted : 1 ≤ remaining
  collected : ∀ v, remaining - 1 = 0 →
    ∃ vs : List Value, results.set slot (some v) = vs.map some

/-- The combinator that a climb has come to is as the climb needs it. -/
structure Climbing.Safe (c : Climbing) : Prop where
  race : ∀ {p slot}, c.link = .race p slot → ∃ link keys members,
    c.waits.get? p = some ⟨c.task, link, .race keys members⟩ ∧
      RaceSlot keys members slot (some c.id)
  all : ∀ {p slot}, c.link = .all p slot → ∃ link results members remaining,
    c.waits.get? p = some ⟨c.task, link, .all results members remaining⟩ ∧
      AllSlot results members remaining slot (some c.id)

end Waits

/-- The combinator that a member is being started in is as the start needs it. -/
def Nest.Safe (waits : Waits) (t : TaskId) : Nest → Prop
  | .race id slot _ => ∃ link keys members,
    waits.get? id = some ⟨t, link, .race keys members⟩ ∧ Waits.RaceSlot keys members slot none
  | .all id slot _ => ∃ link results members remaining,
    waits.get? id = some ⟨t, link, .all results members remaining⟩ ∧
      Waits.AllSlot results members remaining slot none

/--
The wait table is a forest: a member reports to the slot it is in, and combinators are complete.
The effects that report to a task are what suspended tasks are parked on.
-/
structure Engine.WaitsFormed (e : Engine) : Prop where
  member : ∀ {x w p}, e.waits.get? x = some w → w.link.parent? = some p →
    ∃ pw, e.waits.get? p = some pw ∧ pw.task = w.task ∧ pw.kind.HasMember w.link x
  root : ∀ {x w}, e.waits.get? x = some w → w.link = .task →
    ∃ n, e.tasks.get? w.task = some n ∧ n.status = .suspended ∧ n.body.isSome ∧
      n.pending = some x
  race : ∀ {p task link keys members},
    e.waits.get? p = some ⟨task, link, .race keys members⟩ →
      members ≠ [] ∧ Waits.KeysFit keys members.length ∧
        ∀ slot < members.length, ∃ x w, members[slot]? = some (some x) ∧
          e.waits.get? x = some w ∧ w.task = task ∧ w.link = .race p slot
  all : ∀ {p task link results members remaining},
    e.waits.get? p = some ⟨task, link, .all results members remaining⟩ →
      members.length = results.length ∧ remaining = results.countP (·.isNone) ∧ 1 ≤ remaining ∧
        ∀ slot < results.length,
          (∃ v, results[slot]? = some (some v)) ∧ members[slot]? = some none ∨
          results[slot]? = some none ∧ ∃ x w, members[slot]? = some (some x) ∧
            e.waits.get? x = some w ∧ w.task = task ∧ w.link = .all p slot

/-- What the work on a wait table relies on, wherever a scenario comes to. -/
structure Config.WaitsSafe (c : Config) (i : MiddlewareId) : Prop where
  /-- Before a job is performed the table is a forest of complete combinators. -/
  formed : ∀ {job rest}, c.todo = .perform i job :: rest → (c.world.engine i).WaitsFormed
  /-- A settlement climbs in rounds, each of which finds its combinator in order. -/
  climbs : ∀ {id signal rest wait},
    c.todo = .perform i (.reaction (.settle id signal)) :: rest →
      (c.world.engine i).waits.get? id = some wait →
        let start := Waits.Climbing.start (c.world.engine i).waits id wait signal
        (∀ {n d}, Loop.Rounds Waits.Climbing.round n start d → d.Safe) ∧
          ∃ n d, Loop.Ends Waits.Climbing.round n start d ∧
            (Waits.settle (c.world.engine i).waits id signal).wakeup = d.wakeup
  /-- The task that a settlement comes to goes on with the signal. -/
  wakes : ∀ {id signal rest u},
    c.todo = .perform i (.reaction (.settle id signal)) :: rest →
      (Waits.settle (c.world.engine i).waits id signal).wakeup = some u →
        ∃ body w', c.world.rests i u.task = some (body, some u.effect) ∧
          c.step = some ⟨body.opens ⟨i, u.task⟩ (some u.signal) :: rest, w'⟩
  /-- A member that was started has a slot of its own in the combinator around it. -/
  starts : ∀ {turn body n nests start rest},
    c.todo = .begun turn body (n :: nests) start :: rest → turn.mw = i →
      n.Safe (c.world.engine i).waits turn.task

namespace Waits

variable {waits : Waits}

/-! ## Slots of combinators -/

theorem raceSlot_of_fit {keys : Option (List String)} {members : List (Option EffectId)}
    {slot : Nat} {member : Option EffectId} (hfit : KeysFit keys members.length)
    (hm : members[slot]? = some member) : RaceSlot keys members slot member where
  member := hm
  key {ks} hks := by
    obtain ⟨hlen, hnd⟩ := hfit ks hks
    have hlt : slot < ks.length := hlen ▸ (List.getElem?_eq_some_iff.1 hm).1
    have hkey : ks[slot]? = some ks[slot] := List.getElem?_eq_getElem hlt
    refine ⟨hnd, hlen, ks[slot], hkey, fun v => ?_⟩
    simp only [raceResult, hks, hkey, Option.getD_some]

/-- Results of which none is missing are values. -/
theorem eq_map_some {results : List (Option Value)} (h : results.countP (·.isNone) = 0) :
    ∃ vs : List Value, results = vs.map some := by
  induction results with
  | nil => exact ⟨[], rfl⟩
  | cons r rs ih =>
    rw [List.countP_cons] at h
    cases r with
    | none => simp at h
    | some v =>
      obtain ⟨vs, rfl⟩ := ih (by omega)
      exact ⟨v :: vs, rfl⟩

theorem allSlot_of_count {results : List (Option Value)} {members : List (Option EffectId)}
    {remaining slot : Nat} {member : Option EffectId} (hm : members[slot]? = some member)
    (hr : results[slot]? = some none) (hrem : remaining = results.countP (·.isNone)) :
    AllSlot results members remaining slot member := by
  refine ⟨hm, hr, ?_, fun v h0 => eq_map_some ?_⟩
  · have := countP_set_value .unit hr
    omega
  · have := countP_set_value v hr
    omega

/-- The slot of a pending member has no result yet. -/
theorem result_of_member {results : List (Option Value)} {members : List (Option EffectId)}
    (h : List.Forall₂ SlotFilled results members) {slot : Nat} {x : EffectId}
    (hm : members[slot]? = some (some x)) : results[slot]? = some none := by
  obtain ⟨r, hr, hfill⟩ := slotFilled_at h hm
  cases r with
  | none => exact hr
  | some v => simp [SlotFilled] at hfill

/-! ## Climbs -/

/-- What a climb needs is what makes its next round safe. -/
theorem Climbable.safe {c : Climbing} (h : Climbable c.waits c.task c.id c.link) : c.Safe where
  race {p slot} hl := by
    obtain ⟨⟨task, link, kind⟩, hp, rfl, hm⟩ := h.above (by rw [hl]; rfl)
    rw [hl] at hm
    cases kind with
    | race keys members =>
      obtain ⟨-, -, hfit⟩ := h.whole hp
      exact ⟨link, keys, members, hp, raceSlot_of_fit hfit hm⟩
    | _ => exact hm.elim
  all {p slot} hl := by
    obtain ⟨⟨task, link, kind⟩, hp, rfl, hm⟩ := h.above (by rw [hl]; rfl)
    rw [hl] at hm
    cases kind with
    | all results members remaining =>
      obtain ⟨hfill, hrem, -⟩ := h.whole hp
      exact ⟨link, results, members, remaining, hp,
        allSlot_of_count hm (result_of_member hfill hm) hrem⟩
    | _ => exact hm.elim

/-- From round to round a climb finds what it needs. -/
theorem Climbable.round {c c' : Climbing} (h : Climbable c.waits c.task c.id c.link)
    (hr : c.round = some c') : Climbable c'.waits c'.task c'.id c'.link := by
  obtain ⟨waits, task, id, link, signal⟩ := c
  cases link with
  | task => cases hr
  | race p slot =>
    obtain ⟨pw, hp, -, hm⟩ := h.above rfl
    simp only [Climbing.round, hp, Option.some.injEq] at hr
    subst hr
    have hclose : (closeRace (waits.erase p) pw.kind slot signal).2.2 =
        (detachEach (waits.erase p) pw.kind.members).2 := by
      cases hk : pw.kind with
      | race keys members => simp only [closeRace]
      | _ =>
        rw [hk] at hm
        exact hm.elim
    have hc := closes_detachEach h.forest hp (Or.inr rfl)
    rw [← hclose] at hc
    exact hc.climbable h.forest (fun hx _ => h.whole hx) hp
  | all p slot =>
    obtain ⟨pw, hp, -, hmg⟩ := h.merged signal
    obtain ⟨w, hw⟩ := hmg.exists_get? hp
    have hc := (hmg.closes hp hw).2.2
    have hon : ∀ {waits'}, Closes (waits.merge p slot signal).2 p w waits' →
        Climbable waits' w.task p w.link := fun hc =>
      hc.climbable hmg.forest (fun hx hxp => h.whole (hmg.get?_eq hxp ▸ hx)) hw
    simp only [Climbing.round, hw] at hr
    split at hr
    · rename_i wait hout hwait
      cases hwait
      obtain rfl := Option.some.inj hr
      rw [hmg.members_of_complete hp hw hout] at hc
      exact hon hc
    · rename_i result wait hout hwait
      cases hwait
      obtain rfl := Option.some.inj hr
      exact hon hc
    · cases hr

theorem Climbable.rounds {c c' : Climbing} {n : Nat} (h : Climbable c.waits c.task c.id c.link)
    (hr : Loop.Rounds Climbing.round n c c') : Climbable c'.waits c'.task c'.id c'.link :=
  hr.keeps (P := fun c => Climbable c.waits c.task c.id c.link) h fun h hr => h.round hr

end Waits

/-! ## Combinators that are being started -/

/-- The slot of the member that is being started is empty. -/
theorem Nest.Fits.safe {waits : Waits} {t : TaskId} {n : Nest} {link : Link} {kind : WaitKind}
    (h : n.Fits kind) (hw : waits.get? n.id = some ⟨t, link, kind⟩) : n.Safe waits t := by
  cases n with
  | race id slot rest =>
    cases kind with
    | race keys members =>
      obtain ⟨hfit, started, rfl, rfl⟩ := h
      refine ⟨link, keys, _, hw, Waits.raceSlot_of_fit hfit ?_⟩
      simp [List.replicate_succ]
    | _ => exact h.elim
  | all id slot rest =>
    cases kind with
    | all results members remaining =>
      obtain ⟨hrem, values, started, rfl, hfill, rfl, rfl⟩ := h
      refine ⟨link, _, _, remaining, hw, Waits.allSlot_of_count ?_ ?_ hrem⟩
      · simp [List.replicate_succ]
      · simp [← hfill.length_eq, List.replicate_succ]
    | _ => exact h.elim

/-! ## Every moment of a run -/

namespace Scenario.Visits

variable {s : Scenario} {c : Config} {w : World} {i : MiddlewareId} {job : Job}
  {rest : List Instr}

/-- Where a job is about to be performed no task is within a step. -/
theorem framesOf_performs (h : s.Visits ⟨.perform i job :: rest, w⟩) :
    (w.core i).current = none ∧ framesOf i rest = [.drain i] :=
  (h.grounds rfl (h.alive_of_owner rfl).has).stack.of_works trivial

/-- Before a job is performed no effect is being started. -/
theorem forest_performs (h : s.Visits ⟨.perform i job :: rest, w⟩) :
    Waits.Forest (w.engine i).waits [] .task ∧
      ∀ {x wait}, (w.engine i).waits.get? x = some wait → wait.kind.Whole := by
  have hg := h.grounds rfl (h.alive_of_owner rfl).has
  have hrest := h.framesOf_performs.2
  have hloose : looseOf (.perform i job :: framesOf i rest) = [] := by
    rw [hrest]
    rfl
  refine ⟨hloose ▸ hg.tabled.forest, fun {x wait} hx => hg.tabled.whole hx fun y hy => ?_⟩
  rw [hrest] at hy
  rcases List.mem_cons.1 hy with rfl | hy
  · exact List.not_mem_nil
  · rw [List.mem_singleton.1 hy]
    exact List.not_mem_nil

/-- Before a job is performed what reports to a task is what that task is parked on. -/
theorem parked_performs (h : s.Visits ⟨.perform i job :: rest, w⟩) {x : EffectId} {wait : Wait}
    (hx : (w.engine i).waits.get? x = some wait) (hl : wait.link = .task) :
    ∃ n, w.task? i wait.task = some n ∧ n.status = .suspended ∧ n.body.isSome ∧
      n.pending = some x := by
  have hg := h.grounds rfl (h.alive_of_owner rfl).has
  obtain ⟨hcur, hrest⟩ := h.framesOf_performs
  have hloose : x ∉ looseOf (.perform i job :: framesOf i rest) := by
    rw [hrest]
    exact List.not_mem_nil
  obtain ⟨p, hp, hb, hpend⟩ := hg.tabled.rooted hx hl hloose
  have hord := hg.orderly.tasks hp
  obtain ⟨n, hn, rfl⟩ := Option.map_eq_some_iff.1 hp
  have hlive : n.posture.status.isTerminal = false := by
    cases hs : n.posture.status.isTerminal with
    | false => rfl
    | true =>
      rcases hord.terminal hs with hc | ⟨y, hy, hf⟩
      · rw [hcur] at hc
        cases hc
      · rw [hrest] at hy
        rcases List.mem_cons.1 hy with rfl | hy
        · cases hf
        · rw [List.mem_singleton.1 hy] at hf
          cases hf
  refine ⟨n, hn, ?_, hb, hpend⟩
  cases hord.standing hlive with
  | parked hs => exact hs
  | created _ _ hnone | yielded _ _ hnone =>
    rw [hpend] at hnone
    cases hnone
  | running _ hnb | waiting hnb =>
    rw [hb] at hnb
    cases hnb

theorem waitsFormed (h : s.Visits ⟨.perform i job :: rest, w⟩) : (w.engine i).WaitsFormed := by
  obtain ⟨hF, hW⟩ := h.forest_performs
  refine ⟨?_, fun hx hl => h.parked_performs hx hl, ?_, ?_⟩
  · intro x wait p hx hp
    obtain ⟨pw, hpw, ht, -, hm⟩ := hF.up hx List.not_mem_nil hp
    exact ⟨pw, hpw, ht, hm⟩
  · intro p task link keys members hp
    obtain ⟨hne, hall, hfit⟩ := hW hp
    refine ⟨hne, hfit, fun slot hlt => ?_⟩
    obtain ⟨x, hx⟩ := Option.isSome_iff_exists.1 (hall _ (List.getElem_mem hlt))
    have hm : members[slot]? = some (some x) := by rw [List.getElem?_eq_getElem hlt, hx]
    have hlink : (Link.race p slot).parent? = some p := rfl
    obtain ⟨-, -, wx, hwx, hl, ht⟩ := hF.down hp hlink (by simp) hm
    exact ⟨x, wx, hm, hwx, ht, hl⟩
  · intro p task link results members remaining hp
    obtain ⟨hfill, hrem, hpos⟩ := hW hp
    refine ⟨hfill.length_eq.symm, hrem, hpos, fun slot hlt => ?_⟩
    have hlt' : slot < members.length := hfill.length_eq ▸ hlt
    cases hm : members[slot] with
    | none =>
      have hm : members[slot]? = some none := by rw [List.getElem?_eq_getElem hlt', hm]
      obtain ⟨r, hr, hfr⟩ := Waits.slotFilled_at hfill hm
      cases r with
      | none => simp [Waits.SlotFilled] at hfr
      | some v => exact Or.inl ⟨⟨v, hr⟩, hm⟩
    | some x =>
      have hm : members[slot]? = some (some x) := by rw [List.getElem?_eq_getElem hlt', hm]
      have hlink : (Link.all p slot).parent? = some p := rfl
      obtain ⟨-, -, wx, hwx, hl, ht⟩ := hF.down hp hlink (by simp) hm
      exact Or.inr ⟨Waits.result_of_member hfill hm, x, wx, hm, hwx, ht, hl⟩

variable {id : EffectId} {signal : Signal} {wait : Wait}

/-- A settlement that is about to be performed finds an effect without members. -/
theorem climbable_performs (h : s.Visits ⟨.perform i (.reaction (.settle id signal)) :: rest, w⟩)
    (hid : (w.engine i).waits.get? id = some wait) :
    Waits.Climbable ((w.engine i).waits.erase id) wait.task id wait.link := by
  obtain ⟨hF, hW⟩ := h.forest_performs
  have hname : LeafName (w.past i) id := by
    rcases h.knows.todo with ⟨o, ho⟩ | hk
    · cases ho
    · exact hk _ List.mem_cons_self
  have hg := h.grounds rfl (h.alive_of_owner rfl).has
  exact Waits.climbable_erase hF hW hid (hg.tabled.leaf hid hname).members

/-- The effect that a settlement comes to is pending, and reports to its task. -/
theorem wakeup_performs (h : s.Visits ⟨.perform i (.reaction (.settle id signal)) :: rest, w⟩)
    {u : Wakeup} (hu : (Waits.settle (w.engine i).waits id signal).wakeup = some u) :
    ∃ wu, (w.engine i).waits.get? u.effect = some wu ∧ wu.task = u.task ∧ wu.link = .task := by
  cases hid : (w.engine i).waits.get? id with
  | none =>
    rw [Waits.settle_of_absent hid] at hu
    cases hu
  | some wait =>
    have hs := Waits.settles_climb signal (h.climbable_performs hid)
    rw [Waits.settle_eq hid] at hu
    obtain ⟨htask, -, hroot⟩ := hs.wakeup hu
    rcases hroot with ⟨he, hl⟩ | ⟨wx, hwx, ht, hl⟩
    · exact ⟨wait, by rw [he, hid], htask.symm, hl⟩
    · exact ⟨wx, Waits.get?_of_get?_erase hwx, ht.trans htask.symm, hl⟩

/-- The task that a settlement comes to is parked on the effect that is settled last. -/
theorem wakes_performs (h : s.Visits ⟨.perform i (.reaction (.settle id signal)) :: rest, w⟩)
    {u : Wakeup} (hu : (Waits.settle (w.engine i).waits id signal).wakeup = some u) :
    ∃ body w', w.rests i u.task = some (body, some u.effect) ∧
      Config.step ⟨.perform i (.reaction (.settle id signal)) :: rest, w⟩ =
        some ⟨body.opens ⟨i, u.task⟩ (some u.signal) :: rest, w'⟩ := by
  have hi : w.Has i := (h.alive_of_owner rfl).has
  obtain ⟨wu, hwu, htask, hlink⟩ := h.wakeup_performs hu
  obtain ⟨n, hn, hstatus, hbody, hpend⟩ := h.parked_performs hwu hlink
  rw [htask] at hn
  obtain ⟨body, hb⟩ := Option.isSome_iff_exists.1 hbody
  have hrests : w.rests i u.task = some (body, some u.effect) :=
    World.rests_eq_some.2 ⟨n, hn, hb, hpend⟩
  have hlive : ((w.settleWait i id signal).2.core i).Live u.task := by
    refine ⟨n.posture, ?_, by rw [TaskNode.posture, hstatus]; rfl⟩
    rw [World.settleWait, ((World.Advances.start hi).walk _ _).core]
    exact Option.map_eq_some_iff.2 ⟨n, hn, rfl⟩
  obtain ⟨w', hexec, -⟩ := World.beginTurn_of_rests
    ((congrFun (World.rests_settleWait id signal) u.task).trans hrests) hlive (some u.signal)
  have hwake : (w.settleWait i id signal).1 = some u := by
    rw [World.settleWait]
    exact hu
  refine ⟨body, w', hrests, ?_⟩
  simp only [Config.step, Instr.exec, World.execPerform, hwake, hexec, Option.map_some,
    Config.followedBy, List.singleton_append]

theorem nest_safe {turn : Turn} {body : Body} {n : Nest} {nests : List Nest} {start : Start}
    (h : s.Visits ⟨.begun turn body (n :: nests) start :: rest, w⟩) :
    n.Safe (w.engine turn.mw).waits turn.task := by
  have hg := h.grounds (i := turn.mw) rfl (h.alive_of_owner rfl).has
  have hstarts := hg.tabled.frames _ List.mem_cons_self
  have hopen : Open (w.engine turn.mw).waits turn.task (n :: nests) := by
    cases start with
    | pending y => exact hstarts.1
    | _ => exact hstarts
  obtain ⟨⟨⟨task, link, kind⟩, hw, rfl, -, hfit⟩, -⟩ := hopen
  exact hfit.safe hw

/--
Wherever a scenario comes to, the wait tables of its middlewares are in good order for what is
about to be done to them: no count of missing results goes below zero, no slot is out of range,
a race answers under the winner's key, no missing result is collected, and a settlement that
climbs to a task is not lost.
-/
theorem waits_safe (h : s.Visits c) (i : MiddlewareId) : c.WaitsSafe i := by
  obtain ⟨todo, w⟩ := c
  refine ⟨?_, ?_, ?_, ?_⟩
  · rintro job rest rfl
    exact h.waitsFormed
  · rintro id signal rest wait rfl hid
    have hclimb := h.climbable_performs hid
    refine ⟨fun hr => (hclimb.rounds hr).safe, ?_⟩
    obtain ⟨n, d, hends, -, hw⟩ :=
      Waits.climb_ends (.start (w.engine i).waits id wait signal)
    refine ⟨n, d, hends, ?_⟩
    rw [Waits.settle_eq hid]
    exact hw
  · rintro id signal rest u rfl hu
    exact h.wakes_performs hu
  · rintro turn body n nests start rest rfl rfl
    exact h.nest_safe

end Scenario.Visits

/-- A task races a signal against two others of which it needs both; one of these has come. -/
def Scenario.racesPair : Scenario where
  middlewares := [{}]
  scripts := [("racer", [.perform (.race [("stop", .take none (.type "stop")),
    ("both", .all [.take none (.type "left"), .take none (.type "right")])]) none none])]
  steps := [.run 0 { source := .named "racer" } none, .dispatch 0 { kind := "left" }]

/-- Whether effect 5 is about to be settled, and wakes task 1, which is parked on effect 1. -/
def Config.wakesRacer (c : Config) : Bool :=
  match c.todo with
  | .perform 0 (.reaction (.settle 5 signal)) :: _ =>
    (Waits.settle (c.world.engine 0).waits 5 signal).wakeup.any fun u => u.task == 1 && u.effect == 1
  | _ => false

theorem Scenario.waits_safe_racesPair : ∃ w signal rest,
    racesPair.Visits ⟨.perform 0 (.reaction (.settle 5 signal)) :: rest, w⟩ ∧
      (w.engine 0).WaitsFormed ∧ ∃ answer body w', w.rests 0 1 = some (body, some 1) ∧
        Config.step ⟨.perform 0 (.reaction (.settle 5 signal)) :: rest, w⟩ =
          some ⟨body.opens ⟨0, 1⟩ (some answer) :: rest, w'⟩ := by
  have h : ((racesPair.during? (.dispatch 0 { kind := "right" }) 5).any
      Config.wakesRacer) = true := by
    decide +kernel
  obtain ⟨⟨todo, w⟩, hc, h⟩ := (Option.any_eq_true ..).1 h
  have hv := Visits.of_during? hc
  unfold Config.wakesRacer at h
  split at h
  · rename_i _ signal rest htodo
    cases htodo
    obtain ⟨⟨t, x, answer⟩, hu, h⟩ := (Option.any_eq_true ..).1 h
    simp only [Bool.and_eq_true, beq_iff_eq] at h
    obtain ⟨rfl, rfl⟩ := h
    have hsafe := hv.waits_safe 0
    obtain ⟨body, w', hrests, hstep⟩ := hsafe.wakes rfl hu
    exact ⟨w, signal, rest, hv, hsafe.formed rfl, answer, body, w', hrests, hstep⟩
  · cases h

end SagaMachine
