import SagaMachine.Proofs.Provenance
import SagaMachine.Proofs.Sources

/-!
# Joins

A join on a task is answered with the outcome of this task: at once if the outcome is recorded, or
else where it is recorded. Those who join on one task are told in the order in which they joined.

Main statement: `Scenario.Visits.join_has_one_answer`.
-/

namespace SagaMachine

/-- An effect joins on a task of its own middleware, and another task triggered it. -/
structure World.Joins (w : World) (y : EffectId) (t : TaskRef) : Prop where
  has : w.Has t.owner
  triggered : ∃ u q, u ≠ t.id ∧ .triggered u y q (.join t) ∈ w.past t.owner

section

variable {s : Scenario} {c c' next : Config} {w w' : World} {x : Instr} {F rest : List Instr}
  {i : MiddlewareId} {t : TaskRef} {y z : EffectId} {signal : Signal}

theorem World.Joins.issued (h : w.Joins y t) : w.Issued ⟨t.owner, y⟩ (.join t) := by
  obtain ⟨u, q, -, hm⟩ := h.triggered
  exact ⟨h.has, u, q, hm⟩

/-! ## The start of a join -/

/-- A join on another task of the middleware is answered, or it is left pending. -/
theorem World.startJoin_cases (turn : Turn) (b : Body) (nests : List Nest)
    (hown : t.owner = turn.mw) (hne : turn.task ≠ t.id)
    (hn : w.outcomeOf t = none → ∃ n, w.task? t.owner t.id = some n) :
    (∃ o, w.outcomeOf t = some o ∧
      w.startJoin turn b nests y t = w.immediate turn b nests y (.ofOutcome o)) ∨
      (w.startJoin turn b nests y t).world.past turn.mw = w.past turn.mw := by
  unfold startJoin
  rw [if_neg (not_not_intro hown), if_neg (Ne.symm hne)]
  cases ho : w.outcomeOf t with
  | some o => exact Or.inl ⟨o, rfl, rfl⟩
  | none =>
    obtain ⟨n, hn⟩ := hn ho
    rw [hown] at hn
    exact Or.inr (by simp only [hn]; rfl)

namespace Scenario.Visits

/-- The outcome of a task is the last one that was recorded of it, also in a dropped middleware. -/
theorem outcomeOf_eq (h : s.Visits c) (hi : c.world.Has t.owner) :
    c.world.outcomeOf t = (c.world.verdicts t).head? := by
  have hout : ∀ w : World, w.outcomeOf t = (w.book t.owner).outcomes.get? t.id := fun _ => rfl
  induction h with
  | start h =>
    have hk := (setUp_fresh h).keeps t
    rw [hk.verdicts]
    cases World.outcomeOf _ t <;> rfl
  | call _ o budget ih => exact ih hi
  | step h hc ih =>
    have hi := (h.knows.has_iff hc t.owner).1 hi
    have ih := ih hi
    rw [hout, World.verdicts_eq] at ih ⊢
    obtain ⟨x, rest, -, hE⟩ := h.enlists hi hc
    cases hE with
    | none ho hf | ends _ _ ho hf | drops _ ho hf => rw [ho, hf, ih]
    | @one u o ho hf =>
      rw [ho, hf, Table.get?_insert, List.filterMap_cons]
      by_cases hu : t.id = u
      · rw [if_pos hu, if_pos hu.symm]
        rfl
      · rw [if_neg hu, if_neg (Ne.symm hu), ih]

/-- A task with an outcome was recorded as finished. -/
theorem finished_of_outcome (h : s.Visits c) (hi : c.world.Has t.owner) {o : Outcome}
    (ho : c.world.outcomeOf t = some o) : .taskFinished t.id o ∈ c.world.past t.owner := by
  rw [h.outcomeOf_eq hi] at ho
  obtain ⟨e, he, hv⟩ := List.mem_filterMap.1 (List.mem_of_head? ho)
  cases e with
  | taskFinished u o' =>
    obtain ⟨v, hv', hvo⟩ := Option.bind_eq_some_iff.1 hv
    cases hv'
    split at hvo
    · rename_i hu
      cases hvo
      exact hu ▸ he
    · cases hvo
  | _ => cases hv

/-- A join that settles where it is started is answered with the outcome of its task. -/
theorem join_started {u : TaskId} {b : Body} {nests : List Nest}
    (h : s.Visits ⟨.trigger ⟨t.owner, u⟩ b nests (.join t) :: rest, w⟩) (hs : s.HandleFree)
    (hc : Config.step ⟨.trigger ⟨t.owner, u⟩ b nests (.join t) :: rest, w⟩ = some c')
    (hne : u ≠ t.id)
    (hm : .settled (w.engine t.owner).nextEffect signal ∈ c'.world.past t.owner) :
    ∃ q o, w.outcomeOf t = some o ∧ signal = .ofOutcome o ∧
      c'.world.past t.owner = .settled (w.engine t.owner).nextEffect signal ::
        .triggered u (w.engine t.owner).nextEffect q (.join t) :: w.past t.owner := by
  have ha : w.Alive t.owner := h.alive_of_owner rfl
  have htarget := (h.join_target hs List.mem_cons_self ha).2
  have hfresh : ∀ signal, .settled (w.engine t.owner).nextEffect signal ∉ w.past t.owner := by
    intro signal hm
    have hR : Regular (w.past t.owner) := (h.kept ha.has).regular
    obtain ⟨u', q, e, htriggered⟩ :=
      mem_triggeredIn.1 (hR.triggered_of_ended (List.mem_filterMap.2 ⟨_, hm, rfl⟩))
    have hT : Tabled (w.core t.owner) _ (w.past t.owner) :=
      (h.kept ha.has).sound.tabled (Config.alive_iff.2 ha)
    exact Nat.lt_irrefl _ (hT.named htriggered)
  cases hc
  change _ ∈ (w.execTrigger ⟨t.owner, u⟩ b nests (.join t)).world.past t.owner at hm
  change ∃ q o, _ ∧ _ ∧ (w.execTrigger ⟨t.owner, u⟩ b nests (.join t)).world.past t.owner = _
  cases hlive : w.isHalted t.owner u with
  | true =>
    rw [World.execTrigger, if_pos hlive] at hm
    exact absurd hm (hfresh signal)
  | false =>
    obtain ⟨w₁, hw₁, he₁, hp₁⟩ : ∃ w₁ : World,
        w.execTrigger ⟨t.owner, u⟩ b nests (.join t) =
          w₁.startJoin ⟨t.owner, u⟩ b nests (w.engine t.owner).nextEffect t ∧
        w₁.engine t.owner =
          { w.engine t.owner with nextEffect := (w.engine t.owner).nextEffect + 1 } ∧
        w₁.past t.owner = .triggered u (w.engine t.owner).nextEffect (Nest.link nests).parent?
          (.join t) :: w.past t.owner := by
      refine ⟨_, by rw [World.execTrigger, if_neg (by simp [hlive])], ?_, ?_⟩
      · exact World.engine_setEngine ha.has fun e =>
          { e with nextEffect := (w.engine t.owner).nextEffect + 1 }
      · rw [World.past_record]
        rfl
    have ho₁ : w₁.outcomeOf t = w.outcomeOf t := by
      rw [World.outcomeOf, he₁]
      rfl
    have htarget₁ : w₁.outcomeOf t = none → ∃ n, w₁.task? t.owner t.id = some n := by
      rw [ho₁, World.task?, he₁]
      exact htarget
    rw [hw₁] at hm ⊢
    rcases World.startJoin_cases ⟨t.owner, u⟩ b nests
      (y := (w.engine t.owner).nextEffect) rfl hne htarget₁ with ⟨o, ho, he⟩ | he
    · have hpast : (w₁.startJoin ⟨t.owner, u⟩ b nests (w.engine t.owner).nextEffect t).world.past
          t.owner = .settled (w.engine t.owner).nextEffect (.ofOutcome o) :: w₁.past t.owner := by
        rw [he]
        exact World.past_record ..
      rw [hpast, hp₁] at hm ⊢
      rcases List.mem_cons.1 hm with hm | hm
      · cases hm
        exact ⟨_, o, ho₁ ▸ ho, rfl, rfl⟩
      · exact absurd (List.mem_of_ne_of_mem (by simp) hm) (hfresh signal)
    · rw [he, hp₁] at hm
      exact absurd (List.mem_of_ne_of_mem (by simp) hm) (hfresh signal)

/-! ## The answer -/

/-- What was triggered as a join before a step was one. -/
theorem joins_of_issued (h : s.Visits c) (hc : c.step = some c') (hj : c'.world.Joins y t)
    (hr : c.world.Issued ⟨t.owner, y⟩ (.join t)) : c.world.Joins y t := by
  obtain ⟨u, q, hne, hm⟩ := hj.triggered
  obtain ⟨u', q', hm'⟩ := hr.triggered
  obtain ⟨es, hes⟩ := h.past_precedes hr.has (.step .refl hc)
  have hR : Regular (c'.world.past t.owner) := ((h.step hc).kept hj.has).regular
  have hlater : .triggered u' y q' (.join t) ∈ c'.world.past t.owner :=
    hes ▸ List.mem_append_right es hm'
  obtain ⟨rfl, -, -⟩ := hR.triggered_once hm hlater
  exact ⟨hr.has, u, q', hne, hm'⟩

/-- A join that was not triggered before a step is started by this step. -/
theorem join_born (h : s.Visits ⟨x :: rest, w⟩) (hc : Config.step ⟨x :: rest, w⟩ = some c')
    (hj : c'.world.Joins y t) (hn : ¬ w.Issued ⟨t.owner, y⟩ (.join t)) :
    ∃ u b nests, x = .trigger ⟨t.owner, u⟩ b nests (.join t) ∧ u ≠ t.id ∧
      y = (w.engine t.owner).nextEffect := by
  obtain ⟨u, q, hne, hm⟩ := hj.triggered
  have hi := (h.knows.has_iff hc t.owner).1 hj.has
  obtain ⟨⟨b, nests, hx⟩, hy⟩ := h.trigger_of_event hi hc (fun hm => hn ⟨hi, u, q, hm⟩) hm
  exact ⟨u, b, nests, hx, hne, hy⟩

/-- What is on its way to a join, and what has settled it, is the outcome of its task. -/
theorem join_answer (h : s.Visits c) (hs : s.HandleFree) (ha : c.world.Alive t.owner)
    (hj : c.world.Joins y t) :
    (∀ signal, c.Brings ⟨t.owner, y⟩ signal →
        ∃ o, c.world.outcomeOf t = some o ∧ signal = .ofOutcome o) ∧
      ∀ signal, .settled y signal ∈ c.world.past t.owner →
        ∃ o, c.world.outcomeOf t = some o ∧ signal = .ofOutcome o := by
  induction h with
  | start h =>
    obtain ⟨u, q, -, hm⟩ := hj.triggered
    rw [World.past, (setUp_fresh h).journal] at hm
    cases hm
  | @call w h o budget ih =>
    obtain ⟨hbrings, hsettled⟩ := ih ha ⟨hj.has, hj.triggered⟩
    refine ⟨fun signal hb => hbrings signal ?_, hsettled⟩
    rcases hb with hb | ⟨z, hz, hb⟩
    · exact Or.inl hb
    · rw [List.mem_singleton.1 hz] at hb
      exact hb.elim
  | @step c c' h hc ih =>
    have hi := (h.knows.has_iff hc t.owner).1 hj.has
    have ha₀ := h.alive_of_step hi hc ha
    obtain ⟨todo, w⟩ := c
    cases todo with
    | nil => cases hc
    | cons x rest =>
    have hwaits : (Effect.join t).Waits := trivial
    have hkeep : ∀ o, w.outcomeOf t = some o → c'.world.outcomeOf t = some o :=
      fun o ho => h.outcome_step hi hc ha ho
    by_cases hold : w.Issued ⟨t.owner, y⟩ (.join t)
    · obtain ⟨hbrings, hsettled⟩ := ih ha₀ (h.joins_of_issued hc hj hold)
      constructor
      · intro signal hb
        rcases h.brings_join hc ha hold hb with hb | ⟨o, ho, hsignal⟩
        · obtain ⟨o, ho, hsignal⟩ := hbrings signal hb
          exact ⟨o, hkeep o ho, hsignal⟩
        · exact ⟨o, ho, hsignal⟩
      · intro signal hm
        by_cases hbefore : .settled y signal ∈ w.past t.owner
        · obtain ⟨o, ho, hsignal⟩ := hsettled signal hbefore
          exact ⟨o, hkeep o ho, hsignal⟩
        · obtain ⟨rfl, -⟩ := h.settles_issued hc hold trivial hbefore hm
          obtain ⟨o, ho, hsignal⟩ :=
            hbrings signal (Config.brings_cons.2 (Or.inl ⟨rfl, rfl⟩))
          exact ⟨o, hkeep o ho, hsignal⟩
    · refine ⟨fun signal hb => absurd hb (h.not_brings_of_born hc hwaits hold hj.issued),
        fun signal hm => ?_⟩
      obtain ⟨u, b, nests, rfl, hne, rfl⟩ := h.join_born hc hj hold
      obtain ⟨q, o, ho, hsignal, -⟩ := h.join_started hs hc hne hm
      exact ⟨o, hkeep o ho, hsignal⟩

end Scenario.Visits

/-! ## The order -/

/-- Wherever a settlement of `z` is scheduled, one of `y` is scheduled before it. -/
def Ahead (y z : EffectId) (rs : List Reaction) : Prop :=
  ∀ ⦃front signal back⦄, rs = front ++ .settle z signal :: back →
    ∃ signal', .settle y signal' ∈ front

namespace Ahead

variable {rs as bs : List Reaction} {r : Reaction}

theorem of_not_mem (h : ∀ signal, .settle z signal ∉ rs) : Ahead y z rs := by
  rintro front signal back rfl
  exact absurd (by simp) (h signal)

theorem tail (h : Ahead y z (r :: rs)) (hr : ∀ signal, r ≠ .settle y signal) : Ahead y z rs := by
  rintro front signal back rfl
  have hall : r :: (front ++ .settle z signal :: back) =
      (r :: front) ++ .settle z signal :: back := rfl
  obtain ⟨signal', hm⟩ := h hall
  exact ⟨signal', List.mem_of_ne_of_mem (Ne.symm (hr signal')) hm⟩

theorem head (h : Ahead y z (.settle z signal :: rs)) : False := by
  have hall : .settle z signal :: rs = [] ++ .settle z signal :: rs := rfl
  obtain ⟨signal', hm⟩ := h hall
  cases hm

/-- What is scheduled in between keeps an order that it has itself. -/
theorem splice (h : Ahead y z (as ++ bs)) (hr : Ahead y z rs) : Ahead y z (as ++ rs ++ bs) := by
  intro front signal back he
  have hfront : ∀ {front : List Reaction} {back : List Reaction},
      rs ++ bs = front ++ .settle z signal :: back →
        ∃ signal', .settle y signal' ∈ as ++ front := by
    intro front back heq
    rcases List.append_eq_append_iff.1 heq with ⟨mid, rfl, hmid⟩ | ⟨mid, rfl, hmid⟩
    · have hall : as ++ bs = (as ++ mid) ++ .settle z signal :: back := by
        rw [hmid, List.append_assoc]
      obtain ⟨signal', hm⟩ := h hall
      refine ⟨signal', (List.mem_append.1 hm).elim (List.mem_append_left _) fun hm => ?_⟩
      exact List.mem_append_right _ (List.mem_append_right _ hm)
    · cases mid with
      | nil =>
        have hall : as ++ bs = as ++ .settle z signal :: back := congrArg (as ++ ·) hmid.symm
        obtain ⟨signal', hm⟩ := h hall
        exact ⟨signal', List.mem_append_left _ hm⟩
      | cons r mid =>
        obtain ⟨rfl, -⟩ := List.cons.inj hmid
        obtain ⟨signal', hm⟩ := hr rfl
        exact ⟨signal', List.mem_append_right _ hm⟩
  rw [List.append_assoc] at he
  rcases List.append_eq_append_iff.1 he with ⟨mid, rfl, hmid⟩ | ⟨mid, rfl, hmid⟩
  · exact hfront hmid
  · cases mid with
    | nil =>
      have hall : rs ++ bs = [] ++ .settle z signal :: back := hmid.symm
      simpa using hfront hall
    | cons r mid =>
      obtain ⟨rfl, -⟩ := List.cons.inj hmid
      have hall : front ++ .settle z signal :: mid ++ bs =
          front ++ .settle z signal :: (mid ++ bs) := by simp
      exact h hall

/-- Of those who joined on a task the first to join is told first. -/
theorem joiners {ids : List EffectId} (hids : ids.Pairwise (· < ·)) (hy : y ∈ ids) (hyz : y < z) :
    Ahead y z (ids.map fun id => .settle id signal) := by
  intro front signal' back he
  obtain ⟨before, after, rfl, hbefore, hafter⟩ := List.map_eq_append_iff.1 he
  obtain ⟨id, after, rfl, hid, -⟩ := List.map_eq_cons_iff.1 hafter
  obtain ⟨rfl, -⟩ := Reaction.settle.inj hid
  rcases List.mem_append.1 hy with hy | hy
  · exact ⟨signal, hbefore ▸ List.mem_map.2 ⟨y, hy, rfl⟩⟩
  · have hsorted := (List.pairwise_append.1 hids).2.1
    rcases List.mem_cons.1 hy with rfl | hy
    · exact absurd hyz (Nat.lt_irrefl _)
    · exact absurd hyz (Nat.not_lt_of_lt (List.rel_of_pairwise_cons hsorted hy))

theorem withholds {r : EffectRef} (h : Ahead y r.effect (w.pending r.mw))
    (hw : w.Withholds r w') : Ahead y r.effect (w'.pending r.mw) := by
  obtain ⟨rs, hfresh, hstack, hrs⟩ := hw
  rw [World.pending, hfresh, hstack]
  exact h.splice (.of_not_mem hrs)

end Ahead

/-- Two joins on a task: the earlier one comes to its end before the later one is settled. -/
inductive Config.Queues (c : Config) (i : MiddlewareId) (y z : EffectId) : Prop
  | ended (h : y ∈ endedIn (c.world.past i))
  | next {signal : Signal} {rest : List Instr}
      (h : c.todo = .perform i (.reaction (.settle y signal)) :: rest)
  | ahead (h : ∀ x ∈ c.todo, ¬ x.Settles ⟨i, z⟩) (hp : Ahead y z (c.world.pending i))

/-- Whoever joins on a task that ends is told after those who joined before. -/
theorem World.ahead_finalize {o : Outcome} (hi : w.Has i) {u : TaskId} {ids : List EffectId}
    (hids : w.joiners i u = ids) (hsorted : ids.Pairwise (· < ·)) (hyz : y < z)
    (hy : z ∈ ids → y ∈ ids) (h : Ahead y z (w.pending i)) :
    Ahead y z ((w.finalize i u o).2.pending i) := by
  cases hn : w.task? i u with
  | none => rwa [World.finalize_of_absent hn]
  | some n =>
    obtain ⟨-, quiet, -, hadv⟩ := (World.Advances.start hi).finalize hn o
    have hn : n.joiners = ids := by
      rw [← hids, World.joiners, hn]
      rfl
    rw [World.pending_scheduled hadv.core (Core.Defers.agenda_bury _ u), hn]
    refine Ahead.splice h ?_
    by_cases hz : z ∈ ids
    · exact Ahead.joiners hsorted (hy hz) hyz
    · refine .of_not_mem fun signal hm => hz ?_
      obtain ⟨id, hid, he⟩ := List.mem_map.1 hm
      exact (Reaction.settle.inj he).1 ▸ hid

/-- The loop takes the jobs one after another. -/
theorem World.queues_execDrain (hi : w.Has i) (hrest : ∀ x ∈ rest, ¬ x.Settles ⟨i, z⟩)
    (hp : Ahead y z (w.pending i))
    (herrand : ∀ errand, .perform i (.errand errand) ∈ ((w.execDrain i).followedBy rest).todo →
      ¬ (Instr.perform i (.errand errand)).Settles ⟨i, z⟩) :
    ((w.execDrain i).followedBy rest).Queues i y z := by
  have hloop : ¬ (Instr.drain i).Settles ⟨i, z⟩ := id
  unfold World.execDrain at herrand ⊢
  cases hn : (w.engine i).agenda.next? with
  | none =>
    refine .ahead hrest ?_
    simpa [Config.followedBy, World.pending, World.engine_setEngine hi, Agenda.flush] using hp
  | some next =>
    obtain ⟨job, agenda⟩ := next
    have hpend : (w.setEngine i fun e => { e with agenda }).pending i =
        agenda.fresh ++ agenda.stack := by
      simp [World.pending, World.engine_setEngine hi]
    have htodo : ¬ (Instr.perform i job).Settles ⟨i, z⟩ →
        ∀ x ∈ Instr.perform i job :: .drain i :: rest, ¬ x.Settles ⟨i, z⟩ := fun hjob =>
      List.forall_mem_cons.2 ⟨hjob, List.forall_mem_cons.2 ⟨hloop, hrest⟩⟩
    rw [hn] at herrand
    rcases Agenda.next?_cases hn with ⟨r, rs, hr, rfl, rfl⟩ | ⟨e, es, hr, -, rfl, rfl⟩
    · rw [show w.pending i = r :: rs from hr] at hp
      by_cases hry : ∃ signal, r = .settle y signal
      · obtain ⟨signal, rfl⟩ := hry
        exact .next rfl
      · refine .ahead (htodo fun hjob => ?_) (hpend ▸ hp.tail fun signal he => hry ⟨signal, he⟩)
        cases r with
        | settle z' signal =>
          cases (show (⟨i, z⟩ : EffectRef) = ⟨i, z'⟩ from hjob)
          exact hp.head
        | _ => exact hjob
    · have hnone : ∀ signal, .settle z signal ∉ (w.setEngine i fun g =>
          { g with agenda := { stack := [], fresh := [], errands := es } }).pending i := by
        intro signal hm
        rw [hpend] at hm
        cases hm
      exact .ahead (htodo (herrand e List.mem_cons_self)) (.of_not_mem hnone)

namespace Scenario.Visits

/-- A task that is joined on is in the table, and has no outcome. -/
theorem outcomeOf_of_joiner (h : s.Visits c) (ha : c.world.Alive t.owner)
    (hz : z ∈ c.world.joiners t.owner t.id) : c.world.outcomeOf t = none := by
  cases ho : c.world.outcomeOf t with
  | none => rfl
  | some o =>
    have hp := ((h.keeps t ha).absent o ho).1
    rw [World.posture_core, Option.map_eq_none_iff] at hp
    rw [World.joiners, hp] at hz
    cases hz

/-- Who joined earlier on a task that has no outcome yet is registered, unless it came to an end. -/
theorem joiner_of_joins (h : s.Visits c) (hs : s.HandleFree) (ha : c.world.Alive t.owner)
    (hy : c.world.Joins y t) (ho : c.world.outcomeOf t = none) :
    y ∈ endedIn (c.world.past t.owner) ∨ y ∈ c.world.joiners t.owner t.id := by
  rcases h.fate_of_issued ha hy.issued trivial with ⟨signal, hm⟩ | hm | ⟨u, k, hclaims⟩
  · exact Or.inl (List.mem_filterMap.2 ⟨_, hm, rfl⟩)
  · exact Or.inl (List.mem_filterMap.2 ⟨_, hm, rfl⟩)
  · have hkind := h.awaits_of_claims ha hy.issued trivial hclaims
    cases k with
    | join u' =>
      obtain rfl : u' = t.id := hkind
      rcases (h.wired.fits ha).served (by rintro d ⟨⟩) hclaims with hr | howes
      · cases hr with
        | join hj => exact Or.inr hj
      · obtain ⟨signal, hb⟩ := h.brings_of_owes hy.issued trivial howes
        obtain ⟨o, ho', -⟩ := (h.join_answer hs ha hy).1 signal hb
        cases ho.symm.trans ho'
    | _ => exact hkind.elim

/-- The order in which tasks were joined on is kept by a step. -/
theorem queues_step (h : s.Visits ⟨x :: rest, w⟩) (hs : s.HandleFree)
    (hc : Config.step ⟨x :: rest, w⟩ = some c') (ha : c'.world.Alive t.owner)
    (hy : w.Joins y t) (hz : w.Joins z t) (hyz : y < z)
    (hq : Config.Queues ⟨x :: rest, w⟩ t.owner y z) : c'.Queues t.owner y z := by
  have hi := hy.has
  have ha₀ : w.Alive t.owner := h.alive_of_step hi hc ha
  have hkeep : y ∈ endedIn (w.past t.owner) → c'.Queues t.owner y z := fun hm => by
    obtain ⟨es, hes⟩ := h.past_precedes hi (.step .refl hc)
    exact .ended (hes ▸ List.mem_filterMap.2
      ((List.mem_filterMap.1 hm).imp fun e he => ⟨List.mem_append_right es he.1, he.2⟩))
  cases hq with
  | ended hm => exact hkeep hm
  | @next signal rest' hx =>
    cases hx
    rcases h.fate_of_issued ha₀ hy.issued trivial with ⟨signal', hm⟩ | hm | ⟨u, k, hclaims⟩
    · exact hkeep (List.mem_filterMap.2 ⟨_, hm, rfl⟩)
    · exact hkeep (List.mem_filterMap.2 ⟨_, hm, rfl⟩)
    · obtain ⟨link, hw⟩ := hclaims.wait
      obtain ⟨next, -, rfl, hmeets⟩ := Config.meets_of_step h.knows hi hc
      cases hmeets with
      | own _ hadv hdoes =>
        have hm := List.mem_append_left (w.past t.owner)
          (List.mem_reverse.2 (hdoes.settles_performed hw))
        exact .ended (List.mem_filterMap.2 ⟨_, hadv.past ▸ hm, rfl⟩)
      | foreign ho => exact absurd rfl ho
      | drops hhead => cases hhead
      | dies hhead => cases hhead
  | ahead hmute hp =>
    obtain ⟨next, hn, rfl⟩ := Option.map_eq_some_iff.1 hc
    have hx := hmute x List.mem_cons_self
    have hrest : ∀ v ∈ rest, ¬ v.Settles ⟨t.owner, z⟩ := fun v hv =>
      hmute v (List.mem_cons_of_mem x hv)
    have htodo : w.Mum ⟨t.owner, z⟩ next → ∀ v ∈ (next.followedBy rest).todo,
        ¬ v.Settles ⟨t.owner, z⟩ := fun hm v hv =>
      (List.mem_append.1 hv).elim (hm.mute v) (hrest v)
    by_cases hloop : x = .drain t.owner
    · subst hloop
      cases hn
      exact World.queues_execDrain hi hrest hp fun errand hm hv => by
        obtain ⟨signal, hb⟩ := (h.step hc).brings_of_settles
          (h.issued_precedes (.step .refl hc) hz.issued) trivial hm hv
        exact hb
    · by_cases hK : x.Stirs (· = .join t.id) t.owner w
      · cases Instr.finalizes hi hK hn with
        | still mum =>
          have hm := mum ⟨t.owner, z⟩
          exact .ahead (htodo hm) (hp.withholds (r := ⟨t.owner, z⟩) hm.withholds)
        | @records v o has withholds joiners world mum =>
          have hm := mum ⟨t.owner, z⟩
          have hv := hp.withholds (r := ⟨t.owner, z⟩) (withholds _)
          by_cases hended : y ∈ endedIn (w.past t.owner)
          · exact hkeep hended
          refine .ahead (fun v hv => (List.mem_append.1 hv).elim (hm.mute v) (hrest v)) ?_
          refine Ahead.withholds (r := ⟨t.owner, z⟩) ?_ hm.withholds
          refine World.ahead_finalize has joiners (h.wired.numbered.joiners _ _) hyz ?_ hv
          exact fun hz => (h.joiner_of_joins hs ha₀ hy (h.outcomeOf_of_joiner ha₀ hz)).resolve_left
            hended
      · have hm := h.mum_issued (r := ⟨t.owner, z⟩) hn ha hz.issued trivial
          (h.unlisted_join ha₀ hz.issued) hK hx hloop
        exact .ahead (htodo hm) (hp.withholds (r := ⟨t.owner, z⟩) hm.withholds)

/-- A join that was triggered later is a later one. -/
theorem joins_before (h : s.Visits ⟨x :: rest, w⟩) (hc : Config.step ⟨x :: rest, w⟩ = some c')
    (hy : c'.world.Joins y t) (hz : w.Joins z t) (hyz : y < z) : w.Joins y t := by
  by_contra hn
  have hborn : ¬ w.Issued ⟨t.owner, y⟩ (.join t) := fun hr => hn (h.joins_of_issued hc hy hr)
  obtain ⟨u, b, nests, rfl, -, rfl⟩ := h.join_born hc hy hborn
  obtain ⟨u', q, -, hm⟩ := hz.triggered
  have hT : Tabled (w.core t.owner) _ (w.past t.owner) :=
    (h.kept hz.has).sound.tabled (Config.alive_iff.2 (h.alive_of_owner rfl))
  exact Nat.lt_asymm hyz (hT.named hm)

/-- Those who join on one task are told in the order in which they joined. -/
theorem queues (h : s.Visits c) (hs : s.HandleFree) (ha : c.world.Alive t.owner)
    (hy : c.world.Joins y t) (hz : c.world.Joins z t) (hyz : y < z) : c.Queues t.owner y z := by
  induction h with
  | start h =>
    obtain ⟨u, q, -, hm⟩ := hy.triggered
    rw [World.past, (setUp_fresh h).journal] at hm
    cases hm
  | @call w h o budget ih =>
    cases ih ha ⟨hy.has, hy.triggered⟩ ⟨hz.has, hz.triggered⟩ with
    | ended hm => exact .ended hm
    | next hx => cases hx
    | ahead hmute hp => exact .ahead (by simp [Instr.Settles]) hp
  | @step c c' h hc ih =>
    have hi := (h.knows.has_iff hc t.owner).1 hy.has
    obtain ⟨todo, w⟩ := c
    cases todo with
    | nil => cases hc
    | cons x rest =>
    have ha₀ : w.Alive t.owner := h.alive_of_step hi hc ha
    by_cases hold : w.Issued ⟨t.owner, z⟩ (.join t)
    · have hz₀ : w.Joins z t := h.joins_of_issued hc hz hold
      have hy₀ : w.Joins y t := h.joins_before hc hy hz₀ hyz
      exact h.queues_step hs hc ha hy₀ hz₀ hyz (ih ha₀ hy₀ hz₀)
    · have hnone : ∀ signal, ¬ c'.Brings ⟨t.owner, z⟩ signal := fun signal =>
        h.not_brings_of_born hc (e := .join t) trivial hold hz.issued
      refine .ahead (fun v hv hsettles => ?_) (.of_not_mem fun signal hm => hnone _ (Or.inl hm))
      obtain ⟨signal, hb⟩ := (h.step hc).brings_of_settles hz.issued trivial hv hsettles
      exact hnone signal (Or.inr ⟨v, hv, hb⟩)

/--
Where a join is settled those who joined earlier have come to their ends, unless the outcome of
the task was recorded when the join was started.
-/
theorem settled_in_turn (h : s.Visits c) (hs : s.HandleFree) (hy : c.world.Joins y t)
    (hz : c.world.Joins z t) (hyz : y < z) (hm : .settled z signal ∈ c.world.past t.owner) :
    ∃ later earlier, c.world.past t.owner = later ++ .settled z signal :: earlier ∧
      (y ∈ endedIn earlier ∨ ∃ u q o before, earlier = .triggered u z q (.join t) :: before ∧
        .taskFinished t.id o ∈ before) := by
  induction h with
  | start h =>
    rw [World.past, (setUp_fresh h).journal] at hm
    cases hm
  | call h o budget ih => exact ih ⟨hy.has, hy.triggered⟩ ⟨hz.has, hz.triggered⟩ hm
  | @step c c' h hc ih =>
    have hi := (h.knows.has_iff hc t.owner).1 hy.has
    obtain ⟨todo, w⟩ := c
    cases todo with
    | nil => cases hc
    | cons x rest =>
    by_cases hold : w.Issued ⟨t.owner, z⟩ (.join t)
    · have hz₀ : w.Joins z t := h.joins_of_issued hc hz hold
      have hy₀ : w.Joins y t := h.joins_before hc hy hz₀ hyz
      obtain ⟨es, hes⟩ := h.past_precedes hi (.step .refl hc)
      by_cases hbefore : .settled z signal ∈ w.past t.owner
      · obtain ⟨later, earlier, hpast, hturn⟩ := ih hy₀ hz₀ hbefore
        exact ⟨es ++ later, earlier, by rw [hes, hpast, List.append_assoc], hturn⟩
      · obtain ⟨rfl, -⟩ := h.settles_issued hc hold trivial hbefore hm
        rw [hes] at hm ⊢
        obtain ⟨later, between, rfl⟩ :=
          List.append_of_mem ((List.mem_append.1 hm).resolve_right hbefore)
        refine ⟨later, between ++ w.past t.owner, by simp, Or.inl ?_⟩
        cases h.queues hs (h.alive_of_owner rfl) hy₀ hz₀ hyz with
        | ended hended =>
          rw [endedIn_append]
          exact List.mem_append_right _ hended
        | next hx =>
          cases hx
          exact absurd hyz (Nat.lt_irrefl _)
        | ahead hmute => exact absurd rfl (hmute _ List.mem_cons_self)
    · obtain ⟨u, b, nests, rfl, hne, rfl⟩ := h.join_born hc hz hold
      obtain ⟨q, o, ho, rfl, hpast⟩ := h.join_started hs hc hne hm
      refine ⟨[], _, hpast, Or.inr ⟨u, q, o, _, rfl, ?_⟩⟩
      exact h.finished_of_outcome hi ho

/-- A join that settled was answered with the outcome of its task. -/
theorem answer_of_settled (h : s.Visits c) (hs : s.HandleFree) (hj : c.world.Joins y t)
    (hm : .settled y signal ∈ c.world.past t.owner) :
    ∃ o, c.world.outcomeOf t = some o ∧ signal = .ofOutcome o := by
  by_cases ha : c.world.Alive t.owner
  · exact (h.join_answer hs ha hj).2 signal hm
  · -- the outcomes survive the middleware, and so does what was recorded before it was dropped
    obtain ⟨w₀, es, h₀, -, ha₀, hpast, hdrops⟩ := h.dropped hj.has ha
    have hbefore : ∀ {e : Event}, e ∈ c.world.past t.owner → (∀ u, e ≠ .bodyDropped u) →
        e ∈ w₀.past t.owner := fun hm hn => by
      rw [hpast] at hm
      refine (List.mem_append.1 hm).resolve_left fun hm => ?_
      obtain ⟨u, hu⟩ := hdrops _ hm
      exact hn u hu
    obtain ⟨u, q, hne, htriggered⟩ := hj.triggered
    have hj₀ : w₀.Joins y t := ⟨ha₀.has, u, q, hne, hbefore htriggered (by simp)⟩
    obtain ⟨o, ho, hsignal⟩ := (h₀.join_answer hs ha₀ hj₀).2 signal (hbefore hm (by simp))
    refine ⟨o, ?_, hsignal⟩
    rw [h₀.outcomeOf_eq ha₀.has] at ho
    have hnone : es.filterMap (Event.verdictOf? t.id) = [] := by
      refine List.filterMap_eq_nil_iff.2 fun e he => ?_
      obtain ⟨u, rfl⟩ := hdrops e he
      rfl
    rw [h.outcomeOf_eq hj.has, World.verdicts, hpast, List.filterMap_append, hnone]
    exact ho

end Scenario.Visits

/-- What has become of a join. -/
inductive Config.JoinStands (c : Config) (y : EffectId) (t : TaskRef) : Prop
  | withdrawn (h : .withdrawn y ∈ c.world.past t.owner)
  | waits (outcome : c.world.outcomeOf t = none) (joiner : y ∈ c.world.joiners t.owner t.id)
  | told {o : Outcome} (outcome : c.world.outcomeOf t = some o) (busy : c.todo ≠ [])
      (brings : c.Brings ⟨t.owner, y⟩ (.ofOutcome o))
  | settled {o : Outcome} (outcome : c.world.outcomeOf t = some o)
      (h : .settled y (.ofOutcome o) ∈ c.world.past t.owner)

/-- How those who join on a task are answered. -/
structure Config.AnswersJoins (c : Config) (t : TaskRef) : Prop where
  /-- A join comes to at most one end. -/
  once : ∀ {y}, c.world.Joins y t → (endedIn (c.world.past t.owner)).count y ≤ 1
  /-- The answer is the outcome of the task. -/
  answer : ∀ {y signal}, c.world.Joins y t → .settled y signal ∈ c.world.past t.owner →
    ∃ o, c.world.outcomeOf t = some o ∧ signal = .ofOutcome o
  /-- Without an outcome the join is registered with the task; with one it has the answer, or it
  gets it before the operation is over. -/
  stands : ∀ {y}, c.world.Alive t.owner → c.world.Joins y t → c.JoinStands y t
  /-- A join is answered after the earlier ones, unless the task was finished when it started. -/
  inTurn : ∀ {y z signal}, c.world.Joins y t → c.world.Joins z t → y < z →
    .settled z signal ∈ c.world.past t.owner → ∃ later earlier,
      c.world.past t.owner = later ++ .settled z signal :: earlier ∧
        (y ∈ endedIn earlier ∨ ∃ u q o before, earlier = .triggered u z q (.join t) :: before ∧
          .taskFinished t.id o ∈ before)
  /-- Where a join is started, a task without an outcome is in the table. -/
  target : ∀ {u b nests rest}, c.todo = .trigger ⟨t.owner, u⟩ b nests (.join t) :: rest →
    c.world.outcomeOf t = none → ∃ n, c.world.task? t.owner t.id = some n

namespace Scenario.Visits

theorem joinStands (h : s.Visits c) (hs : s.HandleFree) (ha : c.world.Alive t.owner)
    (hj : c.world.Joins y t) : c.JoinStands y t := by
  obtain ⟨hbrings, hsettled⟩ := h.join_answer hs ha hj
  rcases h.fate_of_issued ha hj.issued trivial with ⟨signal, hm⟩ | hm | ⟨u, k, hclaims⟩
  · obtain ⟨o, ho, rfl⟩ := hsettled signal hm
    exact .settled ho hm
  · exact .withdrawn hm
  · have hkind := h.awaits_of_claims ha hj.issued trivial hclaims
    cases k with
    | join u' =>
      obtain rfl : u' = t.id := hkind
      rcases (h.wired.fits ha).served (by rintro d ⟨⟩) hclaims with hr | howes
      · cases hr with
        | join hjoiner => exact .waits (h.outcomeOf_of_joiner ha hjoiner) hjoiner
      · obtain ⟨signal, hb⟩ := h.brings_of_owes hj.issued trivial howes
        obtain ⟨o, ho, rfl⟩ := hbrings signal hb
        refine .told ho (fun hnil => ?_) hb
        obtain ⟨todo, w⟩ := c
        subst hnil
        exact h.owes_nil hj.has howes
    | _ => exact hkind.elim

/--
Join has one answer. A join on a task comes to at most one end; if it is not withdrawn it is
answered with the outcome of the task, at once if this is recorded, or else when it is recorded.
Those who are registered with the task are answered in the order in which they joined, and the
task is in the table as long as its outcome is not recorded.
-/
theorem join_has_one_answer (h : s.Visits c) (hs : s.HandleFree) (t : TaskRef) :
    c.AnswersJoins t where
  once hj := by
    have hR : Regular (c.world.past t.owner) := (h.kept hj.has).regular
    exact List.nodup_iff_count_le_one.1 hR.ended_once _
  answer hj hm := h.answer_of_settled hs hj hm
  stands ha hj := h.joinStands hs ha hj
  inTurn hy hz hyz hm := h.settled_in_turn hs hy hz hyz hm
  target {u b nests rest} hx ho := by
    obtain ⟨todo, w⟩ := c
    subst hx
    exact (h.join_target hs List.mem_cons_self (h.alive_of_owner rfl)).2 ho

end Scenario.Visits

/-- The effect, the task and the target of a join that is started. -/
def Event.join? : Event → Option (EffectId × TaskId × TaskRef)
  | .triggered u y _ (.join t) => some (y, u, t)
  | _ => none

theorem World.joins_of_join? {u : TaskId} (hi : w.Has t.owner) (hne : u ≠ t.id)
    (h : (y, u, t) ∈ (w.past t.owner).filterMap Event.join?) : w.Joins y t := by
  obtain ⟨e, he, hj⟩ := List.mem_filterMap.1 h
  refine ⟨hi, u, ?_⟩
  cases e with
  | triggered u' z q e =>
    cases e with
    | join t' =>
      cases hj
      exact ⟨q, hne, he⟩
    | _ => cases hj
  | _ => cases hj

/-- Two tasks join on one that waits for an action, and a third one joins when it is done. -/
def Scenario.joinsTaker : Scenario where
  middlewares := [{}]
  scripts := [("taker", [.perform (.take none (.type "hit")) none none]),
    ("joiner", [.perform (.join (.task "taker")) none none])]
  steps := [.run 0 { source := .named "taker" } (some "taker"),
    .run 0 { source := .named "joiner" } none, .run 0 { source := .named "joiner" } none,
    .dispatch 0 { kind := "hit" }, .run 0 { source := .named "joiner" } none]

theorem Scenario.join_has_one_answer_joinsTaker : ∃ w t, joinsTaker.Visits ⟨[], w⟩ ∧
    joinsTaker.HandleFree ∧ w.Joins 2 t ∧ w.Joins 3 t ∧ w.Joins 4 t ∧
    effectsEnded (w.toldOf 0) = [1, 2, 3, 4] ∧ Config.AnswersJoins ⟨[], w⟩ t := by
  have h : (joinsTaker.final?.any fun w => decide ((w.alive? 0).isSome = true ∧
      (w.past 0).filterMap Event.join? =
        [(4, 4, ⟨0, 1, "taker"⟩), (3, 3, ⟨0, 1, "taker"⟩), (2, 2, ⟨0, 1, "taker"⟩)] ∧
      effectsEnded (w.toldOf 0) = [1, 2, 3, 4])) = true := by
    decide +kernel
  obtain ⟨w, hw, h⟩ := (Option.any_eq_true ..).1 h
  obtain ⟨hi, hjoins, hended⟩ := of_decide_eq_true h
  have hv := Visits.of_final? hw
  have hs : joinsTaker.HandleFree := fun _ _ hm => by cases hm
  have hjoin : ∀ {y u : Nat}, u ≠ 1 → (y, u, ⟨0, 1, "taker"⟩) ∈ (w.past 0).filterMap Event.join? →
      w.Joins y ⟨0, 1, "taker"⟩ :=
    World.joins_of_join? (t := ⟨0, 1, "taker"⟩) (World.has_iff.2 hi)
  rw [hjoins] at hjoin
  exact ⟨w, _, hv, hs, hjoin (y := 2) (u := 2) (by decide) (by simp),
    hjoin (y := 3) (u := 3) (by decide) (by simp), hjoin (y := 4) (u := 4) (by decide) (by simp),
    hended, hv.join_has_one_answer hs _⟩

end

end SagaMachine
