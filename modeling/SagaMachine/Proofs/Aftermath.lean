import SagaMachine.Proofs.Cancellations
import SagaMachine.Proofs.Consistency

/-!
# After a cancellation

A cancellation of a task that is not stepped, and has nobody below it who is, changes exactly
what it has to: the attached subtree leaves the table, with its pending effects and their
registrations, those who joined on it are told, and the ancestors that waited for this child alone
complete. Everybody else is as before.

Main statement: `Scenario.Visits.cancel_exact`.
-/

namespace SagaMachine

/-! ## Whose effects are pending -/

/-- What a frame has at hand belongs to the task that it steps. -/
theorem Instr.Starts.task_of_loose {k : Core} {y : Instr} (h : y.Starts k) {x : EffectId}
    (hx : x ∈ y.loose) : ∃ t wait, y.turn? = some t ∧ k.waits.get? x = some wait ∧ wait.task = t := by
  have nests : ∀ {t : TaskId} {ns : List Nest}, Open k.waits t ns → x ∈ ns.map Nest.id →
      ∃ wait, k.waits.get? x = some wait ∧ wait.task = t := by
    intro t ns ho hm
    obtain ⟨n, hn, rfl⟩ := List.mem_map.1 hm
    exact ho.exists_get? hn
  cases y with
  | trigger turn b ns e =>
    obtain ⟨wait, hw, ht⟩ := nests (show Open k.waits turn.task ns from h)
      (by simpa [Instr.loose, Instr.begun?, Instr.nests] using hx)
    exact ⟨_, wait, rfl, hw, ht⟩
  | answer turn b ns z a env =>
    obtain ⟨wait, hw, ht⟩ := nests h.1 (by simpa [Instr.loose, Instr.begun?, Instr.nests] using hx)
    exact ⟨_, wait, rfl, hw, ht⟩
  | cancelDone turn b ns z =>
    obtain ⟨wait, hw, ht⟩ := nests h.1 (by simpa [Instr.loose, Instr.begun?, Instr.nests] using hx)
    exact ⟨_, wait, rfl, hw, ht⟩
  | begun turn b ns start =>
    cases start with
    | pending z =>
      rcases List.mem_append.1 hx with hx | hx
      · obtain rfl : x = z := by simpa [Instr.begun?] using hx
        obtain ⟨-, -, wait, hw, ht, -⟩ := h.2
        exact ⟨_, wait, rfl, hw, ht⟩
      · obtain ⟨wait, hw, ht⟩ := nests h.1 hx
        exact ⟨_, wait, rfl, hw, ht⟩
    | immediate | halt =>
      obtain ⟨wait, hw, ht⟩ := nests (show Open k.waits turn.task ns from h)
        (by simpa [Instr.loose, Instr.begun?, Instr.nests] using hx)
      exact ⟨_, wait, rfl, hw, ht⟩
  | leave turn b exit =>
    cases exit with
    | suspended z =>
      obtain rfl : x = z := by simpa [Instr.loose, Instr.begun?, Instr.nests] using hx
      obtain ⟨-, -, wait, hw, ht, -⟩ := h
      exact ⟨_, wait, rfl, hw, ht⟩
    | _ => simp [Instr.loose, Instr.begun?, Instr.nests] at hx
  | _ => simp [Instr.loose, Instr.begun?, Instr.nests] at hx

/-- An effect is pending for a task whose step is under way, or that has its body. -/
theorem Tabled.owner {i : MiddlewareId} {k : Core} {F : List Instr} {past : List Event}
    (h : Tabled k F past) (hs : Stack i k.current F) {x : EffectId} {wait : Wait}
    (hw : k.waits.get? x = some wait) :
    k.current = some wait.task ∨ ∃ p, k.posture wait.task = some p ∧ p.hasBody = true := by
  induction x using Nat.strongRecOn generalizing wait with
  | _ x ih =>
    by_cases hx : x ∈ looseOf F
    · obtain ⟨y, hy, hxy⟩ := List.mem_flatMap.1 hx
      obtain ⟨t, wait', ht, hw', rfl⟩ := (h.frames y hy).task_of_loose hxy
      rw [hw] at hw'
      cases hw'
      exact Or.inl (hs.turn_unique hy ht)
    · cases hp : wait.link.parent? with
      | none =>
        have hl : wait.link = .task := by
          cases hl : wait.link with
          | task => rfl
          | race | all =>
            rw [hl] at hp
            cases hp
        obtain ⟨p, hpo, hb, -⟩ := h.rooted hw hl hx
        exact Or.inr ⟨p, hpo, hb⟩
      | some p =>
        obtain ⟨pw, hpw, ht, hlt, -⟩ := h.forest.up hw hx hp
        rw [← ht]
        exact ih p hlt hpw

namespace Scenario.Visits

variable {s : Scenario} {c : Config} {i : MiddlewareId} {x : EffectId} {wait : Wait}

/-- Wherever a scenario comes to, whoever an effect is pending for is stepped or has a body. -/
theorem owner (h : s.Visits c) (hi : c.world.Alive i)
    (hw : (c.world.engine i).waits.get? x = some wait) :
    (c.world.engine i).current = some wait.task ∨
      ∃ n, c.world.task? i wait.task = some n ∧ n.body.isSome := by
  have hs := h.sound hi.has
  have ht := hs.tabled (by simp [Config.view, show c.world.alive? i = some true from hi])
  refine (ht.owner hs.framed.stack hw).imp_right ?_
  rintro ⟨p, hp, hb⟩
  rw [show (c.view i).core = c.world.core i from rfl, World.posture_core] at hp
  obtain ⟨n, hn, rfl⟩ := Option.map_eq_some_iff.1 hp
  exact ⟨n, hn, hb⟩

/-- What is not pending is not registered. -/
theorem unregistered (h : s.Visits c) (hi : c.world.Alive i)
    (hx : (c.world.engine i).waits.get? x = none) (k : WaitKind) :
    ¬ c.world.Registered ⟨i, x⟩ k := by
  intro hr
  obtain ⟨t, link, hw⟩ := Config.Wired.wait_of_registered h.wired hi hr
  rw [hx] at hw
  cases hw

/-- Nobody joins twice. -/
theorem joinedOnce (h : s.Visits c) (hi : c.world.Alive i) :
    (c.world.engine i).tasks.JoinedOnce where
  nodup {t n} hn := by
    have hnd : (c.world.joiners i t).Nodup := (h.wired.numbered.joiners i t).imp Nat.ne_of_lt
    rwa [World.joiners, show c.world.task? i t = some n from hn] at hnd
  unique {t u n m x} hn hm hx hx' := by
    have hr : ∀ {t n}, (c.world.engine i).tasks.get? t = some n → x ∈ n.joiners →
        c.world.Registered ⟨i, x⟩ (.join t) := by
      intro t n hn hx
      refine .join ?_
      rw [World.joiners, show c.world.task? i t = some n from hn]
      exact hx
    obtain ⟨_, _, hw⟩ := Config.Wired.wait_of_registered h.wired hi (hr hn hx)
    obtain ⟨_, _, hw'⟩ := Config.Wired.wait_of_registered h.wired hi (hr hm hx')
    rw [hw] at hw'
    cases hw'
    rfl

/-- If only tasks that are gone were to lose effects, they lost all of theirs, and nobody else any. -/
theorem waits_of_felled {opened S : TaskId → Prop} {ms : List Event} {ns : List (EffectId × Outcome)}
    {e : Engine} (h : s.Visits c) (hi : c.world.Alive i)
    (he : Engine.Fells opened ms ns e (c.world.engine i))
    (hopened : ∀ {x wait}, e.waits.get? x = some wait → opened wait.task → S wait.task)
    (hcur : ∀ {u}, S u → e.current ≠ some u) (hgone : ∀ {u}, S u → c.world.task? i u = none)
    (x : EffectId) (wait : Wait) : (c.world.engine i).waits.get? x = some wait ↔
      e.waits.get? x = some wait ∧ ¬ S wait.task := by
  constructor
  · intro hx
    refine ⟨he.waits hx, fun hS => ?_⟩
    rcases h.owner hi hx with hc | ⟨n, hn, -⟩
    · exact hcur hS (he.current.symm.trans hc)
    · rw [hgone hS] at hn
      cases hn
  · rintro ⟨hx, hS⟩
    cases hx' : (c.world.engine i).waits.get? x with
    | none => exact absurd (hopened hx (he.withdrawn hx hx')) hS
    | some wait' =>
      rw [he.waits hx'] at hx
      exact hx

/-- An effect of a task that has lost all of them is registered nowhere. -/
theorem unregistered_of_lost {S : TaskId → Prop} {e : Engine} (h : s.Visits c)
    (hi : c.world.Alive i) (hwaits : ∀ x wait, (c.world.engine i).waits.get? x = some wait ↔
      e.waits.get? x = some wait ∧ ¬ S wait.task)
    (hx : e.waits.get? x = some wait) (hS : S wait.task) (k : WaitKind) :
    ¬ c.world.Registered ⟨i, x⟩ k := by
  refine h.unregistered hi ?_ k
  cases hx' : (c.world.engine i).waits.get? x with
  | none => rfl
  | some wait' =>
    obtain ⟨hold, hS'⟩ := (hwaits x wait').1 hx'
    cases hx.symm.trans hold
    exact absurd hS hS'

end Scenario.Visits

/-- Whoever joined on a task that is recorded, and still waits, is told. -/
theorem Engine.Fells.told_of_waiting {opened : TaskId → Prop} {ms : List Event}
    {ns : List (EffectId × Outcome)} {e e' : Engine} (h : Engine.Fells opened ms ns e e')
    {t : TaskId} {o : Outcome} {n : TaskNode} {x : EffectId} {wait : Wait}
    (ho : .taskFinished t o ∈ ms) (hn : e.tasks.get? t = some n) (hx : x ∈ n.joiners)
    (hw : e'.waits.get? x = some wait) : (x, o) ∈ ns := by
  refine (h.told ho hn hx).resolve_right fun hnone => ?_
  rw [hw] at hnone
  cases hnone

/-! ## What is recorded -/

section

variable {i : MiddlewareId} {w w' : World} {t u p : TaskId} {n m : TaskNode} {v : Value}
  {chain : List (TaskId × Value)} {todo : List Instr} {s : Scenario} {cost : TaskId → Nat}

theorem finishedIn_milestones (es : List Event) :
    finishedIn (es.filter Event.isMilestone) = finishedIn es := by
  rw [finishedIn, List.filterMap_filter]
  refine List.filterMap_congr fun e _ => ?_
  cases e <;> rfl

theorem finishedIn_chain (chain : List (TaskId × Value)) :
    finishedIn (chain.map doneEvent) = chain.map Prod.fst := by
  induction chain with
  | nil => rfl
  | cons q chain ih => simpa [finishedIn, doneEvent, Event.finished?] using ih

/-- Each task of a list that is torn down is recorded, unless its step is under way. -/
theorem World.finishedIn_demises {us : List TaskId} (hus : ∀ u ∈ us, ∃ n, w.task? i u = some n)
    (hcur : ∀ u ∈ us, (w.engine i).current ≠ some u) :
    finishedIn (us.flatMap (w.demise i)) = us := by
  induction us with
  | nil => rfl
  | cons u us ih =>
    obtain ⟨n, hn⟩ := hus u List.mem_cons_self
    have hu : finishedIn (w.demise i u) = [u] := by
      simp only [World.demise, hn, hcur u List.mem_cons_self, if_false, finishedIn_append,
        finishedIn_bodyEvents]
      rfl
    rw [List.flatMap_cons, finishedIn_append, hu,
      ih (fun u hu => hus u (List.mem_cons_of_mem _ hu)) fun u hu => hcur u (List.mem_cons_of_mem _ hu)]
    rfl

/-- What is recorded when a list of tasks is torn down and a chain of others completes. -/
theorem World.mem_teardown {us : List TaskId} {o : Outcome}
    (hus : ∀ u ∈ us, ∃ n, w.task? i u = some n) (hcur : ∀ u ∈ us, (w.engine i).current ≠ some u) :
    .taskFinished u o ∈ us.flatMap (w.demise i) ++ chain.map doneEvent ↔
      u ∈ us ∧ o = .cancelled ∨ ∃ v, (u, v) ∈ chain ∧ o = .done v := by
  rw [List.mem_append, List.mem_flatMap, List.mem_map]
  refine or_congr ⟨?_, ?_⟩ ⟨?_, ?_⟩
  · rintro ⟨q, hq, hqo⟩
    rcases demise_cases hqo with he | ⟨he, -⟩ <;> cases he
    exact ⟨hq, rfl⟩
  · rintro ⟨hu, rfl⟩
    obtain ⟨n, hn⟩ := hus u hu
    exact ⟨u, hu, by simp [World.demise, hn, hcur u hu]⟩
  · rintro ⟨⟨q, v⟩, hq, he⟩
    cases he
    exact ⟨v, hq, rfl⟩
  · rintro ⟨v, hv, rfl⟩
    exact ⟨(u, v), hv, rfl⟩

/-- A task that holds a value has no body any more. -/
theorem Orderly.body_of_result {k : Core} {F : List Instr} {q : Posture} (h : Orderly i k F)
    (hp : k.posture t = some q) (hl : q.status.isTerminal = false) (hv : q.result = some v) :
    q.hasBody = false := by
  cases (h.tasks hp).standing hl with
  | waiting hb => exact hb
  | created _ _ _ hr | yielded _ _ _ hr | parked _ _ _ hr | running _ _ hr =>
    rw [hr] at hv
    cases hv

namespace Tasks.Completing

variable {tasks : Tasks}

/-- Those who complete hold their values. -/
theorem holding (h : tasks.Completing t chain) (hu : (u, v) ∈ chain) :
    ∃ m, tasks.get? u = some m ∧ m.status.isTerminal = false ∧ m.result = some v := by
  induction h with
  | stop => cases hu
  | climb hl _ ih =>
    rcases List.mem_cons.1 hu with he | hu
    · cases he
      obtain ⟨-, m, -, -, -, hm, hlm, hv, -⟩ := hl
      exact ⟨m, hm, hlm, hv⟩
    · exact ih hu

theorem nodup (h : tasks.Completing t chain)
    (hbelow : ∀ {c n q}, tasks.get? c = some n → n.parent = some q → q < c) :
    (chain.map Prod.fst).Nodup := by
  induction h with
  | stop => exact List.nodup_nil
  | @climb c p v chain hl hc ih =>
    rw [List.map_cons, List.nodup_cons]
    refine ⟨fun hm => ?_, ih⟩
    obtain ⟨⟨q, u⟩, hq, hqp⟩ := List.mem_map.1 hm
    exact Nat.ne_of_lt (hc.lt hbelow hq) hqp

end Tasks.Completing

/-- A body is dropped before the outcome of its task is recorded. -/
theorem dropped_before {es ms ms' : List Event} {body : Option Body} {o : Outcome}
    (hes : es.filter Event.isMilestone = ms ++ (bodyEvents u body ++ .taskFinished u o :: ms'))
    (hb : body.isSome) :
    ∃ before after, es = before ++ .taskFinished u o :: after ∧ .bodyDropped u ∈ before := by
  rw [← List.append_assoc] at hes
  obtain ⟨before, rest, rfl, hbefore, hrest⟩ := List.filter_eq_append_iff.1 hes
  obtain ⟨between, after, rfl, -, -, -⟩ := List.filter_eq_cons_iff.1 hrest
  refine ⟨before ++ between, after, by simp, List.mem_append_left _ ?_⟩
  have hmem : .bodyDropped u ∈ before.filter Event.isMilestone := by
    rw [hbefore]
    simp [bodyEvents, hb]
  exact (List.mem_filter.1 hmem).1

/-- What the cancellation of a task does to its middleware, and what it does not. -/
structure World.Cancels (i : MiddlewareId) (t : TaskId) (chain : List (TaskId × Value))
    (es : List Event) (w w' : World) : Prop where
  past : w'.past i = es.reverse ++ w.past i
  /-- The ancestors that complete are those that wait for this child alone, and so on upwards. -/
  completing : (w.engine i).tasks.Completing t chain
  /-- The subtree is recorded as cancelled, the ancestors with their values, and nobody else. -/
  recorded : ∀ u o, .taskFinished u o ∈ es ↔
    (w.engine i).tasks.Attached t u ∧ o = .cancelled ∨ ∃ v, (u, v) ∈ chain ∧ o = .done v
  once : (finishedIn es).Nodup
  dropped : ∀ {u n}, (w.engine i).tasks.Attached t u → w.task? i u = some n → n.body.isSome →
    ∃ before after, es = before ++ .taskFinished u .cancelled :: after ∧ .bodyDropped u ∈ before
  removed : ∀ {u o}, .taskFinished u o ∈ es →
    w'.task? i u = none ∧ (w'.engine i).outcomes.get? u = some o
  kept : ∀ {u n}, w.task? i u = some n → u ∉ finishedIn es → ∃ n', w'.task? i u = some n' ∧
    n'.status = n.status ∧ n'.body = n.body ∧ n'.pending = n.pending ∧ n'.result = n.result
  absent : ∀ {u}, w.task? i u = none → w'.task? i u = none
  /-- Exactly the effects of the subtree are withdrawn. -/
  waits : ∀ {x wait}, (w'.engine i).waits.get? x = some wait ↔
    (w.engine i).waits.get? x = some wait ∧ ¬ (w.engine i).tasks.Attached t wait.task
  unregistered : ∀ {x wait}, (w.engine i).waits.get? x = some wait →
    (w.engine i).tasks.Attached t wait.task → ∀ k, ¬ w'.Registered ⟨i, x⟩ k
  /-- Whoever joined is told, once; and a task outside of the subtree that joined on one of its
  tasks is. -/
  notices : ∃ ns : List (EffectId × Outcome),
    (w'.engine i).agenda = { (w.engine i).agenda with
      fresh := (w.engine i).agenda.fresh ++ ns.map notice } ∧ (ns.map Prod.fst).Nodup ∧
    (∀ {x o}, (x, o) ∈ ns → ∃ u n, .taskFinished u o ∈ es ∧ w.task? i u = some n ∧
      x ∈ n.joiners) ∧
    ∀ {u n x wait}, (w.engine i).tasks.Attached t u → w.task? i u = some n → x ∈ n.joiners →
      (w.engine i).waits.get? x = some wait → ¬ (w.engine i).tasks.Attached t wait.task →
      (x, .cancelled) ∈ ns ∧ notice (x, .cancelled) = .settle x (.value .unit)
  /-- A second cancellation changes nothing. -/
  again : ∀ todo, Config.step ⟨.cancel i t :: todo, w'⟩ = some ⟨todo, w'⟩

namespace Scenario.Visits

/-- Those who complete have no effects. -/
theorem idle_of_completing {y : Instr} (h : s.Visits ⟨y :: todo, w⟩) (hg : Grounds i y todo w)
    (ha : w.Alive i) (hcomp : (w.engine i).tasks.Completing t chain) {x : EffectId} {wait : Wait}
    (hx : (w.engine i).waits.get? x = some wait) : (wait.task, v) ∉ chain := by
  intro hm
  obtain ⟨m, hmt, hlm, hv⟩ := hcomp.holding hm
  have hp : (w.core i).posture wait.task = some m.posture := by
    rw [World.posture_core, World.task?, hmt]
    rfl
  rcases h.owner ha hx with hc | ⟨n, hn, hnb⟩
  · have hr := ((hg.orderly.driver hc).1.2 m.posture hp).2.1
    rw [show m.posture.result = m.result from rfl, hv] at hr
    cases hr
  · rw [World.task?, hmt] at hn
    cases hn
    have hbody := hg.orderly.body_of_result hp hlm (v := v) hv
    rw [show m.posture.hasBody = m.body.isSome from rfl, hnb] at hbody
    cases hbody

/--
The cancellation of a live task, nobody of whose attached subtree is stepped and the destructors of
whose bodies leave the middleware alone, comes to its end and tears down exactly this subtree.
-/
theorem cancel_exact (h : s.Visits ⟨.cancel i t :: todo, w⟩) (cost : TaskId → Nat)
    (hl : (w.engine i).tasks.isLive t = true)
    (hcur : ∀ u, (w.engine i).tasks.Attached t u → (w.engine i).current ≠ some u)
    (hb : ∀ u n b, (w.engine i).tasks.Attached t u → w.task? i u = some n → n.body = some b →
      b.HarmlessTo i (cost u))
    (hw : (((w.engine i).tasks.cancellationOrder t).map cost).sum ≤ w.budget) :
    ∃ w' chain es, Config.Leads ⟨.cancel i t :: todo, w⟩ ⟨todo, w'⟩ ∧ w.Cancels i t chain es w' := by
  have hi : w.Has i := World.has_of_live (World.live_iff.1 hl)
  have ha : w.Alive i := h.alive_of_owner rfl
  have hg := h.grounds rfl hi
  have hF := hg.family
  simp only [hg.attached_iff] at hb hcur
  have htt : (w.engine i).tasks.Below t t := .root hl
  obtain ⟨w', chain, hlead, hf, -, hchain, -⟩ := h.cancel_leads (World.live_iff.1 hl) hb hw
  have hcomp := hchain (hcur t htt)
  obtain ⟨es, hpast, hes⟩ := hf.past
  obtain ⟨ns, he⟩ := hf.engine
  have hv' := h.leads hlead
  have ha' : w'.Alive i := by rw [World.Alive, hf.alive]; exact ha
  have hmem := fun u => Tasks.mem_cancellationOrder (u := u) hF hl
  have hnode : ∀ u ∈ (w.engine i).tasks.cancellationOrder t, ∃ n, w.task? i u = some n := by
    intro u hu
    obtain ⟨n, hn, -⟩ := Tasks.isLive_iff.1 ((hmem u).1 hu).isLive
    exact ⟨n, hn⟩
  have hcur' : ∀ u ∈ (w.engine i).tasks.cancellationOrder t, (w.engine i).current ≠ some u :=
    fun u hu => hcur u ((hmem u).1 hu)
  -- the milestones among what is recorded
  have hms : ∀ {u o}, .taskFinished u o ∈ es ↔ .taskFinished u o ∈
      ((w.engine i).tasks.cancellationOrder t).flatMap (w.demise i) ++ chain.map doneEvent := by
    intro u o
    rw [← hes]
    simp [Event.isMilestone]
  have hms' : finishedIn es = finishedIn (((w.engine i).tasks.cancellationOrder t).flatMap
      (w.demise i) ++ chain.map doneEvent) := by
    rw [← hes, finishedIn_milestones]
  have hrec : ∀ u o, .taskFinished u o ∈ es ↔
      (w.engine i).tasks.Below t u ∧ o = .cancelled ∨ ∃ v, (u, v) ∈ chain ∧ o = .done v := by
    intro u o
    rw [hms, World.mem_teardown hnode hcur', hmem]
  have hgone : ∀ {u}, (w.engine i).tasks.Below t u → w'.task? i u = none := fun hu =>
    (he.finished (hms.1 ((hrec _ _).2 (Or.inl ⟨hu, rfl⟩)))).2.1
  have hopened : ∀ {x wait}, (w.engine i).waits.get? x = some wait →
      ((w.engine i).tasks.Below t wait.task ∨ ∃ v, (wait.task, v) ∈ chain) →
        (w.engine i).tasks.Below t wait.task := by
    rintro x wait hx (hbel | ⟨v, hv⟩)
    · exact hbel
    · exact absurd hv (h.idle_of_completing hg ha hcomp hx)
  have hwaits := hv'.waits_of_felled ha' he hopened (hcur _) hgone
  refine ⟨w', chain, es, hlead, ?_⟩
  constructor
  case past => exact hpast
  case completing => exact hcomp
  case recorded => simpa only [hg.attached_iff] using hrec
  case once =>
    rw [hms', finishedIn_append, finishedIn_chain, World.finishedIn_demises hnode hcur',
      List.nodup_append]
    refine ⟨Tasks.nodup_cancellationOrder hF hl, hcomp.nodup hg.below, fun u hu q hq => ?_⟩
    rintro rfl
    obtain ⟨⟨q, v⟩, hqv, rfl⟩ := List.mem_map.1 hq
    exact Nat.not_lt_of_le (((hmem q).1 hu).le hF) (hcomp.lt hg.below hqv)
  case dropped =>
    intro u n hu hn hbody
    rw [hg.attached_iff] at hu
    obtain ⟨l₁, l₂, hsplit⟩ := List.append_of_mem ((hmem u).2 hu)
    refine dropped_before (show _ = l₁.flatMap (w.demise i) ++ (_ ++ .taskFinished u .cancelled ::
      (l₂.flatMap (w.demise i) ++ chain.map doneEvent)) from ?_) hbody
    rw [hes, hsplit, List.flatMap_append, List.flatMap_cons]
    simp [World.demise, hn, hcur u hu]
  case removed => exact fun hu => (he.finished (hms.1 hu)).2
  case kept =>
    intro u n hn hu
    obtain ⟨n', hn', hout⟩ := he.kept hn (hms' ▸ hu)
    refine ⟨n', hn', hout.alike ?_⟩
    rintro (hbel | ⟨v, hv⟩)
    · exact hu (mem_finishedIn.2 ⟨_, (hrec _ _).2 (Or.inl ⟨hbel, rfl⟩)⟩)
    · exact hu (mem_finishedIn.2 ⟨_, (hrec _ _).2 (Or.inr ⟨v, hv, rfl⟩)⟩)
  case absent => exact fun hn => he.absent hn
  case waits =>
    intro x wait
    rw [hg.attached_iff]
    exact hwaits x wait
  case unregistered =>
    intro x wait hx hatt
    rw [hg.attached_iff] at hatt
    exact hv'.unregistered_of_lost ha' hwaits hx hatt
  case notices =>
    refine ⟨ns, he.agenda, he.once (h.joinedOnce ha), fun hx => ?_, ?_⟩
    · obtain ⟨u, n, hu, hn, hj⟩ := he.heard hx
      exact ⟨u, n, hms.2 hu, hn, hj⟩
    · intro u n x wait hu hn hj hx hout
      rw [hg.attached_iff] at hu hout
      have hdone := hms.1 ((hrec _ _).2 (Or.inl ⟨hu, rfl⟩))
      exact ⟨he.told_of_waiting hdone hn hj ((hwaits x wait).2 ⟨hx, hout⟩), rfl⟩
  case again =>
    intro todo'
    have hdead : (w'.engine i).tasks.isLive t = false := by
      rw [Tasks.isLive, show (w'.engine i).tasks.get? t = none from hgone htt]
    simp [Config.step, Instr.exec, World.execCancel, hdead, Config.followedBy]

end Scenario.Visits

end

/-- A task holds its value for its child, which has a child of its own and is joined by others. -/
def Scenario.heldAndJoined : Scenario where
  scripts := [
    ("root", [.perform (.fork { source := .named "child" }) none (some "child"), .return .unit]),
    ("child", [.guard "child" [], .perform (.fork { source := .named "grandchild" }) none none,
      .perform (.take none (.type "never")) none none]),
    ("grandchild", [.guard "grandchild" [], .perform (.take none (.type "never")) none none]),
    ("other", [.perform (.join (.task "child")) none none])]
  steps := [.run 0 { source := .named "root" } none, .run 0 { source := .named "other" } none]

theorem Scenario.cancel_exact_heldAndJoined : ∃ todo w w' chain es,
    heldAndJoined.Visits ⟨.cancel 0 2 :: todo, w⟩ ∧ (w.engine 0).tasks.size = 4 ∧
      Config.Leads ⟨.cancel 0 2 :: todo, w⟩ ⟨todo, w'⟩ ∧ w.Cancels 0 2 chain es w' := by
  have h : ((heldAndJoined.during? (.cancel (.task "child")) 1).any fun c =>
      c.cancels? = some (0, 2) && c.world.guardsIdle 0 && (c.world.engine 0).current = none &&
        (c.world.engine 0).tasks.isLive 2 && (c.world.engine 0).tasks.size = 4) = true := by
    decide +kernel
  obtain ⟨c, hc, h⟩ := (Option.any_eq_true ..).1 h
  simp only [Bool.and_eq_true, decide_eq_true_eq] at h
  obtain ⟨⟨⟨⟨hcancel, hidle⟩, hcur⟩, hlive⟩, hsize⟩ := h
  obtain ⟨todo, hc'⟩ := Config.of_cancels? hcancel
  have hv : heldAndJoined.Visits ⟨.cancel 0 2 :: todo, c.world⟩ := hc' ▸ Visits.of_during? hc
  obtain ⟨w', chain, es, hlead, hcancels⟩ := hv.cancel_exact (fun _ => 0) hlive
    (fun u _ hu => by rw [hcur] at hu; cases hu)
    (fun u n b _ hn hb => World.harmlessTo_of_guardsIdle hidle hn hb) (by simp)
  exact ⟨todo, c.world, w', chain, es, hv, hsize, hlead, hcancels⟩

end SagaMachine
