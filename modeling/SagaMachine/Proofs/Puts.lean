import SagaMachine.Proofs.Debts
import SagaMachine.Proofs.Sleepers

/-!
# Puts

The put of an effect is an errand: it waits in the queue, it is carried out, and its effect is
settled after the takers that it woke. The task behind it sleeps all the time, so its body is polled
again only when everybody who was woken by the delivery has been, with everything that follows.

Main statement: `Scenario.Visits.put_first`.
-/

namespace SagaMachine

namespace Scenario.Visits

variable {s : Scenario} {c c' : Config} {i : MiddlewareId} {t : TaskId} {r : EffectRef} {y : Instr}
  {pre rest : List Instr}

/-- Only effects without members are settled from somewhere else. -/
theorem leafName_of_owes (h : s.Visits c) (ho : c.Owes r) :
    LeafName (c.world.past r.mw) r.effect := by
  rcases ho with ho | ⟨y, hy, hs⟩
  · exact (h.knows.world.engine r.mw).leafName ho
  · rcases h.knows.todo with ⟨o, heq⟩ | hk
    · rw [heq, List.mem_singleton] at hy
      subst hy
      exact hs.elim
    · exact (hk y hy).leafName (Or.inl hs)

/-- A middleware whose loop is below was not dropped. -/
theorem alive_of_below (h : s.Visits c) (hi : c.world.Has i) (hpre : c.todo = pre ++ .drain i :: rest) :
    c.world.Alive i := by
  have hmem : .drain i ∈ framesOf i c.todo := by
    rw [hpre]
    exact List.mem_filter.2 ⟨List.mem_append_right _ List.mem_cons_self, by simp [Instr.owner?]⟩
  obtain ⟨m, hm⟩ := hi
  have hv : (c.view i).alive = m.alive := by simp [Config.view, World.alive?, hm]
  cases ha : m.alive with
  | true => simp [World.Alive, World.alive?, hm, ha]
  | false =>
    have hnil := ((h.sound ⟨m, hm⟩).framed.dead (hv.trans ha)).1
    rw [show framesOf i c.todo = [] from hnil] at hmem
    cases hmem

/-- While the settlement of an effect is on its way, every other instruction is silent about it. -/
theorem silent_step (h : s.Visits c) (hi : c.world.Has r.mw) (ho : c.Owes r)
    (hpre : c.todo = y :: pre ++ .drain r.mw :: rest) (hy : ¬ y.Settles r)
    (hs : (c.world.core r.mw).Sleeps t r.effect) (hc : c.step = some c') :
    ∃ next, c'.todo = next ++ (pre ++ .drain r.mw :: rest) ∧ (∀ z ∈ next, ¬ z.Settles r) ∧
      c'.world.told r = c.world.told r ∧ (c.world.core r.mw).Accrues (c'.world.core r.mw) ∧
        (c'.world.core r.mw).Sleeps t r.effect := by
  obtain ⟨todo, w⟩ := c
  obtain rfl : todo = y :: (pre ++ .drain r.mw :: rest) := hpre
  have hpre : (Config.mk (y :: (pre ++ .drain r.mw :: rest)) w).todo =
      y :: pre ++ .drain r.mw :: rest := rfl
  have ha : w.Alive r.mw := h.alive_of_below hi hpre
  have hacc : (w.core r.mw).Accrues (c'.world.core r.mw) :=
    h.accrues hi (h.driving hi hpre) (h.isDrain_of_below hi hpre) hc
  have hsleeps := h.sleeps ha (h.leafName_of_owes ho) hs
    (fun signal he => hy (by rw [he]; exact rfl)) (Or.inr (by simp)) hc
  obtain ⟨next, hn, rfl⟩ := Option.map_eq_some_iff.1 hc
  have hmum := h.withholds ha ho (by simp) hy (fun j hj hji => ?_) hn
  · exact ⟨next.todo, rfl, hmum.mute, hmum.withholds.told, hacc, hsleeps⟩
  · subst hj hji
    cases h.isDrain_of_below hi hpre rfl

end Scenario.Visits

/-- A reaction that settles something else is not the settlement. -/
theorem Reaction.not_settles {i : MiddlewareId} {x : EffectId} {y : Reaction} (hy : y.settles x = false) :
    ¬ (Instr.perform i (.reaction y)).Settles ⟨i, x⟩ := by
  intro hs
  cases y with
  | settle z signal =>
    cases hs
    simp [Reaction.settles] at hy
  | _ => exact hs.elim

/--
What has become of a put: its errand is waiting, or it is under way, or its effect is about to
settle, or it is done with and its task may go on. `log` is what was performed so far.
-/
inductive Scenario.Puts (s : Scenario) (i : MiddlewareId) (rest : List Instr) (t : TaskId)
    (x : EffectId) : List Performed → Config → Prop
  | waits {log : List Performed} {c : Config} {q : Errand}
      (queued : q ∈ (c.world.engine i).agenda.errands) (reply : q.reply? = some x)
      (told : c.world.told ⟨i, x⟩ = []) (mute : ∀ y ∈ c.todo, ¬ y.Settles ⟨i, x⟩)
      (sleeps : (c.world.core i).Sleeps t x) : s.Puts i rest t x log c
  | underway {log : List Performed} {c : Config} {q : Errand} {caused : List Reaction}
      (user : List Instr) {g : Instr} (reply : q.reply? = some x)
      (todo : c.todo = user ++ g :: .drain i :: rest) (answers : g.Answers ⟨i, x⟩)
      (told : c.world.told ⟨i, x⟩ = []) (stack : (c.world.engine i).agenda.stack = [])
      (mute : ∀ y ∈ user ++ .drain i :: rest, ¬ y.Settles ⟨i, x⟩)
      (sleeps : (c.world.core i).Sleeps t x) : s.Puts i rest t x (log ++ [⟨.errand q, caused⟩]) c
  | settles {log log' : List Performed} {c d : Config} {q : Errand} {woken : List Reaction}
      {signal : Signal} (reply : q.reply? = some x) (visits : s.Visits d) (has : d.world.Has i)
      (loop : d.todo = .drain i :: rest)
      (pending : d.world.pending i = woken ++ [.settle x signal]) (logs : d.Logs i rest log' c)
      (told : c.world.told ⟨i, x⟩ = [.settle x signal]) (mute : ∀ y ∈ c.todo, ¬ y.Settles ⟨i, x⟩)
      (sleeps : (c.world.core i).Sleeps t x) :
      s.Puts i rest t x (log ++ ⟨.errand q, woken ++ [.settle x signal]⟩ :: log') c
  | done {log log₁ log₂ : List Performed} {c : Config} {q : Errand} {woken : List Reaction}
      {signal : Signal} (reply : q.reply? = some x) (others : Unfolds (woken.map .reaction) log₁ [])
      (last : log₂ ≠ []) :
      s.Puts i rest t x (log ++ ⟨.errand q, woken ++ [.settle x signal]⟩ :: (log₁ ++ log₂)) c

namespace Scenario.Puts

variable {s : Scenario} {c c' : Config} {i : MiddlewareId} {t : TaskId} {x : EffectId} {y : Instr}
  {pre rest : List Instr} {log log' : List Performed}

/-- A pending settlement is owed. -/
theorem owes_of_told {c : Config} {r : EffectRef} {signal : Signal}
    (h : c.world.told r = [.settle r.effect signal]) : c.Owes r := by
  have hm : .settle r.effect signal ∈ c.world.told r := by simp [h]
  rcases List.mem_append.1 (List.mem_filter.1 hm).1 with hm | hm
  · exact Or.inl (Or.inl ⟨signal, Or.inr hm⟩)
  · exact Or.inl (Or.inl ⟨signal, Or.inl hm⟩)

/-- What was performed before the job taken last stays as it is. -/
theorem concat_cases {as bs as' : List Performed} {b p : Performed}
    (h : as ++ b :: bs = as' ++ [p]) : bs = [] ∧ as = as' ∧ b = p ∨
      ∃ cs, bs = cs ++ [p] ∧ as' = as ++ b :: cs := by
  rcases List.eq_nil_or_concat bs with rfl | ⟨cs, q, rfl⟩
  · obtain ⟨rfl, hb⟩ := List.append_inj' h rfl
    exact Or.inl ⟨rfl, rfl, (List.cons.inj hb).1⟩
  · rw [List.concat_eq_append, ← List.cons_append, ← List.append_assoc] at h
    obtain ⟨rfl, hq⟩ := List.append_inj' h rfl
    obtain rfl := (List.cons.inj hq).1
    exact Or.inr ⟨cs, List.concat_eq_append .., rfl⟩

/-- The present job goes on. -/
theorem busy (hp : s.Puts i rest t x log c) (h : s.Visits c) (hi : c.world.Has i)
    (hpre : c.todo = pre ++ .drain i :: rest) (hbusy : c.todo ≠ .drain i :: rest)
    (hc : c.step = some c') (hlog : log = [] ∧ log' = [] ∨ ∃ before job caused,
      log = before ++ [⟨job, caused⟩] ∧
        log' = before ++ [⟨job, (c'.world.engine i).agenda.fresh⟩]) :
    s.Puts i rest t x log' c' := by
  cases pre with
  | nil => exact absurd hpre hbusy
  | cons y pre =>
  have hmem : ∀ z, z ∈ pre ++ .drain i :: rest → z ∈ c.todo := fun z hz => by
    rw [hpre]
    exact List.mem_cons_of_mem _ hz
  have hy : y ∈ c.todo := by
    rw [hpre]
    exact List.mem_cons_self
  cases hp with
  | @waits _ _ q queued reply told mute sleeps =>
    have ho : c.Owes ⟨i, x⟩ := Or.inl (Or.inr ⟨q, queued, reply⟩)
    obtain ⟨next, htodo, hmute, htold, hacc, hsl⟩ :=
      h.silent_step (r := ⟨i, x⟩) hi ho hpre (mute y hy) sleeps hc
    obtain ⟨es, hes⟩ := hacc.errands
    have hes : (c'.world.engine i).agenda.errands = (c.world.engine i).agenda.errands ++ es := hes
    refine .waits (hes ▸ List.mem_append_left _ queued) reply (htold.trans told) (fun z hz => ?_) hsl
    rw [htodo] at hz
    rcases List.mem_append.1 hz with hz | hz
    · exact hmute z hz
    · exact mute z (hmem z hz)
  | @underway log c q caused user g reply todo answers told stack mute sleeps =>
    obtain ⟨job, rfl, rfl⟩ : ∃ job, job = Job.errand q ∧
        log' = log ++ [⟨job, (c'.world.engine i).agenda.fresh⟩] := by
      rcases hlog with ⟨hnil, -⟩ | ⟨before, job, caused', heq, rfl⟩
      · simp at hnil
      · obtain ⟨rfl, hq⟩ := List.append_inj' heq rfl
        cases hq
        exact ⟨_, rfl, rfl⟩
    have ho : c.Owes ⟨i, x⟩ := Or.inr ⟨g, by simp [todo], answers.settles⟩
    have ha := h.alive_of_below hi hpre
    cases user with
    | nil =>
      obtain ⟨todo', w⟩ := c
      obtain rfl : todo' = g :: .drain i :: rest := todo
      have hpre' : (Config.mk (g :: .drain i :: rest) w).todo = g :: [] ++ .drain i :: rest := rfl
      have hacc : (w.core i).Accrues (c'.world.core i) :=
        h.accrues hi (h.driving hi hpre) (h.isDrain_of_below hi hpre') hc
      have hsl := h.sleeps ha (h.leafName_of_owes ho) sleeps answers.not_settlement
        (Or.inr (by simp)) hc
      have hstack : (c'.world.engine i).agenda.stack = [] := Eq.trans hacc.stack stack
      have hl : w.Unlisted (fun _ => False) ⟨i, x⟩ :=
        .of_silent fun k hk => (h.wired.fits ha).silent hk ho
      obtain ⟨next, hn, rfl⟩ := Option.map_eq_some_iff.1 hc
      cases answers.exec hl ha hn with
      | on user htodo hg hmute hw =>
        refine .underway user reply (by simp [Config.followedBy, htodo]) hg
          (hw.told.trans told) hstack (fun y hy => ?_) hsl
        rcases List.mem_append.1 hy with hy | hy
        · exact hmute y hy
        · exact mute y hy
      | @ended w₁ signal htodo hw hi₁ hworld =>
        obtain ⟨rs, hf, -, hrs⟩ := hw
        have hfresh : ((next.followedBy (.drain i :: rest)).world.engine i).agenda.fresh =
            (w.engine i).agenda.fresh ++ rs ++ [.settle x signal] := by
          show (next.world.engine i).agenda.fresh = _
          rw [hworld, World.schedule, World.engine_setEngine hi₁]
          exact congrArg (· ++ [Reaction.settle x signal]) hf
        have hpend : (next.followedBy (.drain i :: rest)).world.pending i =
            (w.engine i).agenda.fresh ++ rs ++ [.settle x signal] := by
          rw [World.pending, hfresh, hstack, List.append_nil]
        have hnone : (w.engine i).agenda.fresh.filter (Reaction.settles x) = [] := by
          have := told
          rwa [World.told, World.pending, stack, List.append_nil] at this
        have hone : Reaction.settles x (.settle x signal) = true := by simp [Reaction.settles]
        rw [hfresh]
        refine .settles reply (h.step hc) ((h.knows.has_iff hc i).2 hi)
          (by simp [Config.followedBy, htodo]) hpend .start ?_ (fun y hy => ?_) hsl
        · rw [World.told, hpend, List.filter_append, List.filter_append, hnone,
            Reaction.filter_settles hrs, List.filter_cons_of_pos hone]
          rfl
        · simp only [Config.followedBy, htodo] at hy
          exact mute y hy
    | cons z user =>
      rw [List.cons_append] at todo mute
      have htodo : c.todo = z :: (user ++ [g]) ++ .drain i :: rest := by simpa using todo
      obtain ⟨next, htodo, hmute, htold, hacc, hsl⟩ :=
        h.silent_step (r := ⟨i, x⟩) hi ho htodo
          (mute z List.mem_cons_self) sleeps hc
      have hstack : (c'.world.engine i).agenda.stack = (c.world.engine i).agenda.stack := hacc.stack
      refine .underway (next ++ user) reply (by simpa using htodo) answers (htold.trans told)
        (hstack.trans stack) (fun y hy => ?_) hsl
      rw [List.append_assoc] at hy
      rcases List.mem_append.1 hy with hy | hy
      · exact hmute y hy
      · exact mute y (List.mem_cons_of_mem _ hy)
  | @settles log log₁ c d q woken signal reply visits has loop pending logs told mute sleeps =>
    obtain ⟨next, htodo, hmute, htold, hacc, hsl⟩ :=
      h.silent_step (r := ⟨i, x⟩) hi (owes_of_told told) hpre (mute y hy) sleeps hc
    obtain ⟨before, job, caused, heq, rfl⟩ := hlog.resolve_left fun hnil => by simp at hnil
    rcases concat_cases heq with ⟨rfl, -, -⟩ | ⟨log₂, rfl, rfl⟩
    · rw [logs.eq_of_loop loop] at hbusy
      exact absurd loop hbusy
    · rw [List.append_assoc, List.cons_append]
      refine .settles reply visits has loop pending (logs.works hbusy hc) (htold.trans told)
        (fun z hz => ?_) hsl
      rw [htodo] at hz
      rcases List.mem_append.1 hz with hz | hz
      · exact hmute z hz
      · exact mute z (hmem z hz)
  | @done log log₁ log₂ c q woken signal reply others last =>
    obtain ⟨before, job, caused, heq, rfl⟩ := hlog.resolve_left fun hnil => by simp at hnil
    rcases List.eq_nil_or_concat log₂ with rfl | ⟨log₃, p, rfl⟩
    · exact absurd rfl last
    · rw [List.concat_eq_append, ← List.append_assoc] at heq
      rcases concat_cases heq with ⟨hnil, -⟩ | ⟨log₄, heq', rfl⟩
      · simp at hnil
      · obtain ⟨rfl, -⟩ := List.append_inj' heq' rfl
        rw [List.append_assoc, List.cons_append, List.append_assoc]
        exact .done reply others (by simp)

/-- The next job is taken. -/
theorem take (hp : s.Puts i rest t x log c) (h : s.Visits c) (hi : c.world.Has i)
    (loop : c.todo = .drain i :: rest) {job : Job} {a : Agenda}
    (next : (c.world.engine i).agenda.next? = some (job, a)) (hc : c.step = some c') :
    s.Puts i rest t x (log ++ [⟨job, []⟩]) c' := by
  obtain ⟨htodo, hagenda⟩ := Config.loop_step hi loop next hc
  have hsl : (c.world.core i).Sleeps t x → LeafName (c.world.past i) x →
      (c'.world.core i).Sleeps t x := by
    intro hs hx
    obtain ⟨todo, w⟩ := c
    subst loop
    exact h.sleeps (h.alive_of_owner rfl) hx hs (by simp) (Or.inl rfl) hc
  have hpend : (∃ r, job = .reaction r ∧ c.world.pending i = r :: c'.world.pending i ∧
        (c'.world.engine i).agenda.errands = (c.world.engine i).agenda.errands) ∨
      ∃ e, job = .errand e ∧ c.world.pending i = [] ∧
        (c.world.engine i).agenda.errands = e :: (c'.world.engine i).agenda.errands ∧
        (c'.world.engine i).agenda.stack = [] ∧ c'.world.pending i = [] := by
    rcases Agenda.next?_cases next with ⟨r, rs, hr, rfl, rfl⟩ | ⟨e, es, hr, he, rfl, rfl⟩
    · exact Or.inl ⟨r, rfl, by simp [World.pending, hagenda, hr], by rw [hagenda]⟩
    · exact Or.inr ⟨e, rfl, hr, by rw [hagenda, he], by rw [hagenda], by simp [World.pending, hagenda]⟩
  cases hp with
  | @waits _ _ q queued reply told mute sleeps =>
    have hx : LeafName (c.world.past i) x :=
      h.leafName_of_owes (r := ⟨i, x⟩) (Or.inl (Or.inr ⟨q, queued, reply⟩))
    have hmute : ∀ y ∈ .drain i :: rest, ¬ y.Settles ⟨i, x⟩ := loop ▸ mute
    rcases hpend with ⟨r, rfl, hp, he⟩ | ⟨e, rfl, hp, he, hstack, hnil⟩
    · have hr : Reaction.settles x r = false := by
        cases hr : Reaction.settles x r with
        | false => rfl
        | true => simp [World.told, hp, List.filter_cons_of_pos hr] at told
      have htold : c'.world.told ⟨i, x⟩ = [] := by
        rw [← told, World.told, World.told, hp, List.filter_cons_of_neg (by simp [hr])]
      refine .waits (he ▸ queued) reply htold (fun y hy => ?_) (hsl sleeps hx)
      rw [htodo] at hy
      rcases List.mem_cons.1 hy with rfl | hy
      · exact Reaction.not_settles hr
      · exact hmute y hy
    · have htold : c'.world.told ⟨i, x⟩ = [] := by simp [World.told, hnil]
      by_cases hex : e.reply? = some x
      · exact .underway [] hex htodo ⟨x, hex, rfl⟩ htold hstack hmute (hsl sleeps hx)
      · rw [he] at queued
        refine .waits ((List.mem_cons.1 queued).resolve_left fun hq => hex (hq ▸ reply)) reply htold
          (fun y hy => ?_) (hsl sleeps hx)
        rw [htodo] at hy
        rcases List.mem_cons.1 hy with rfl | hy
        · rintro ⟨z, hz, hzx⟩
          cases hzx
          exact hex hz
        · exact hmute y hy
  | underway user reply todo answers =>
    rw [todo] at loop
    have hlen := congrArg List.length loop
    simp at hlen
    omega
  | @settles log log₁ c d q woken signal reply visits has loop' pending logs told mute sleeps =>
    have hlogs := logs.takes loop next hc
    have hx : LeafName (c.world.past i) x := h.leafName_of_owes (owes_of_told told)
    rcases hpend with ⟨r, rfl, hp, he⟩ | ⟨e, rfl, hp, -⟩
    · rw [List.append_assoc, List.cons_append]
      cases hr : Reaction.settles x r with
      | true =>
        have htold : c'.world.told ⟨i, x⟩ = [] := by
          have ht := told
          rw [World.told, hp, List.filter_cons_of_pos hr] at ht
          exact (List.cons.inj ht).2
        have hnot : ∀ {left : List Job}, (c'.world.pending i).map Job.reaction = left →
            .reaction (.settle x signal) ∉ left := by
          rintro _ rfl hm
          obtain ⟨y, hy, hyx⟩ := List.mem_map.1 hm
          cases hyx
          have hin : .settle x signal ∈ c'.world.told ⟨i, x⟩ :=
            List.mem_filter.2 ⟨hy, by simp [Reaction.settles]⟩
          rw [htold] at hin
          cases hin
        -- the settlement itself was taken, so everything before it is done
        obtain ⟨taken, queued, -, hun⟩ := visits.unfolds has loop' hlogs
        rw [pending, List.map_append, List.append_assoc] at hun
        rcases hun.split with ⟨left, hleft, -⟩ | ⟨log₂, log₃, hlog, h₂, h₃⟩
        · exact absurd (by simp) (hnot hleft)
        · rw [hlog]
          refine .done reply h₂ ?_
          rintro rfl
          exact absurd (by simp) (hnot h₃.left_of_nil)
      | false =>
        have htold : c'.world.told ⟨i, x⟩ = [.settle x signal] := by
          rw [← told, World.told, World.told, hp, List.filter_cons_of_neg (by simp [hr])]
        refine .settles reply visits has loop' pending hlogs htold (fun y hy => ?_) (hsl sleeps hx)
        rw [htodo] at hy
        rcases List.mem_cons.1 hy with rfl | hy
        · exact Reaction.not_settles hr
        · exact mute y (loop ▸ hy)
    · rw [World.told, hp] at told
      cases told
  | done reply others last =>
    rw [List.append_assoc, List.cons_append, List.append_assoc]
    exact .done reply others (by simp)

end Scenario.Puts

namespace Scenario.Visits

variable {s : Scenario} {c c' : Config} {w : World} {i : MiddlewareId} {t : TaskId}
  {pre rest : List Instr} {log : List Performed}

/-- The next effect of a middleware is not known to anybody yet. -/
theorem not_owes_next (h : s.Visits c) (ha : c.world.Alive i) :
    ¬ c.Owes ⟨i, (c.world.core i).nextEffect⟩ := by
  intro ho
  obtain ⟨u, p, e, hm, -⟩ := h.leafName_of_owes ho
  have htab := (h.sound ha.has).tabled (by simpa [Config.view, World.Alive] using ha)
  exact absurd (htab.named hm) (Nat.lt_irrefl _)

end Scenario.Visits

/-- The put of an effect leaves an errand and a pending effect behind. -/
theorem World.execTrigger_put {w : World} {i : MiddlewareId} {t : TaskId} (hi : w.Has i)
    (hl : (w.core i).Live t) (b : Body) (target : Target) :
    ∃ q w₁, w.execTrigger ⟨i, t⟩ b [] (.put target) =
        ⟨[.begun ⟨i, t⟩ b [] (.pending (w.core i).nextEffect)], w₁⟩ ∧
      q.reply? = some (w.core i).nextEffect ∧
      w₁.core i = { (w.core i).number.suspend t [] (w.core i).nextEffect .put with
        agenda := (w.core i).agenda.queue q } := by
  have hhalted : w.isHalted i t = false := by
    simpa using fun hh => World.isHalted_iff.1 hh hl
  set x := (w.core i).nextEffect with hx
  set w₀ := (w.setEngine i fun e => { e with nextEffect := x + 1 }).record i
    (.triggered t x (Nest.link []).parent? (.put target)) with hw₀
  have h : Advances i w w₀ (w.core i).number _ :=
    ((Advances.start hi).setEngine (fun k => { k with nextEffect := x + 1 })
      fun _ => rfl).record _
  have hexec : w.execTrigger ⟨i, t⟩ b [] (.put target) = w₀.startPut ⟨i, t⟩ b [] x target := by
    simp only [World.execTrigger, hhalted]
    rfl
  set q : Errand := match target with
    | .bus a => .dispatch a (some x)
    | .channel c v => .put c v x with hq
  have h₁ := h.insertWait x { task := t, link := Nest.link [], kind := .put }
  obtain ⟨n, h₂⟩ := h₁.queue q
  refine ⟨q, (w₀.insertWait i x { task := t, link := Nest.link [], kind := .put }).queue i q,
    hexec.trans ?_, ?_, h₂.core⟩
  · rw [hq]
    cases target <;> rfl
  · rw [hq]
    cases target <;> rfl

namespace Scenario.Visits

variable {s : Scenario} {c c' : Config} {w : World} {i : MiddlewareId} {t : TaskId}
  {pre rest : List Instr} {log : List Performed}

/-- A put that a live body yielded on its own is queued, and its task is parked on it. -/
theorem puts_of_trigger (h : s.Visits c) (hi : c.world.Has i) {b : Body} {target : Target}
    (hput : c.todo = .trigger ⟨i, t⟩ b [] (.put target) :: pre ++ .drain i :: rest)
    (hl : (c.world.core i).Live t) : ∃ c₁ c₂ c₃ x₁ x₂,
      c.step = some c₁ ∧ c₁.todo = x₁ :: pre ++ .drain i :: rest ∧ (∀ b a, x₁ ≠ .poll ⟨i, t⟩ b a) ∧
      c₁.step = some c₂ ∧ c₂.todo = x₂ :: pre ++ .drain i :: rest ∧ (∀ b a, x₂ ≠ .poll ⟨i, t⟩ b a) ∧
      c₂.step = some c₃ ∧ c₃.todo = pre ++ .drain i :: rest ∧
      s.Puts i rest t (c.world.core i).nextEffect [] c₃ := by
  have ha : c.world.Alive i :=
    h.alive_of_below hi (show c.todo = (_ :: pre) ++ .drain i :: rest from hput)
  have hnot := h.not_owes_next ha
  obtain ⟨p, hp, hlive⟩ := hl
  have hborn : t < (c.world.core i).nextTask := ((h.sound hi).orderly.tasks hp).number
  obtain ⟨todo, w⟩ := c
  obtain rfl : todo = .trigger ⟨i, t⟩ b [] (.put target) :: (pre ++ .drain i :: rest) := hput
  obtain ⟨q, w₁, hexec, hreply, hcore⟩ := World.execTrigger_put hi ⟨p, hp, hlive⟩ b target
  set x := (w.core i).nextEffect with hx
  have hi₁ : w₁.Has i := by
    have hstep : Config.step ⟨.trigger ⟨i, t⟩ b [] (.put target) :: (pre ++ .drain i :: rest), w⟩ =
        some ⟨.begun ⟨i, t⟩ b [] (.pending x) :: (pre ++ .drain i :: rest), w₁⟩ :=
      congrArg (fun c => some (Config.followedBy c (pre ++ .drain i :: rest))) hexec
    exact (h.knows.has_iff hstep i).2 hi
  have hp₁ : (w₁.core i).posture t = some p := by
    rw [hcore]
    exact hp
  have hhalted : w₁.isHalted i t = false := by
    simpa using fun hh => World.isHalted_iff.1 hh ⟨p, hp₁, hlive⟩
  have hexec₂ : w₁.execBegun ⟨i, t⟩ b [] (.pending x) =
      ⟨[.leave ⟨i, t⟩ b (.suspended x)], w₁⟩ := by
    simp [World.execBegun, World.resumeBody, hhalted]
  set w₃ := (w₁.setEngine i fun e => { e with current := none }).park i t b (some x) with hw₃
  have hcore₃ : w₃.core i = (w₁.core i).park t (some x) :=
    (((World.Advances.start hi₁).setEngine (fun k => { k with current := none })
      fun _ => rfl).park t b (some x)).core
  have hagenda : (w₃.engine i).agenda = (w.engine i).agenda.queue q := by
    have ha := congrArg Core.agenda hcore₃
    rw [hcore] at ha
    exact ha
  refine ⟨_, _, ⟨pre ++ .drain i :: rest, w₃⟩, _, _,
    congrArg (fun c => some (Config.followedBy c (pre ++ .drain i :: rest))) hexec, rfl, by simp,
    congrArg (fun c => some (Config.followedBy c (pre ++ .drain i :: rest))) hexec₂, rfl, by simp,
    rfl, rfl, ?_⟩
  refine .waits (q := q) ?_ hreply ?_ (fun y hy hs => ?_) ⟨?_, ?_, ?_⟩
  · show q ∈ (w₃.engine i).agenda.errands
    rw [hagenda]
    exact List.mem_append_right _ List.mem_cons_self
  · refine List.filter_eq_nil_iff.2 fun r hr hset => hnot ?_
    obtain ⟨signal, rfl⟩ := Reaction.settles_iff.1 hset
    have hr : .settle x signal ∈ w₃.pending i := hr
    rw [World.pending, hagenda] at hr
    exact Or.inl (Or.inl ⟨signal, (List.mem_append.1 hr).symm⟩)
  · exact hnot (Or.inr ⟨y, List.mem_cons_of_mem _ hy, hs⟩)
  · show t < (w₃.core i).nextTask
    rw [hcore₃, hcore]
    exact hborn
  · show (w₃.core i).current ≠ some t
    rw [hcore₃]
    exact fun he : none = some t => by cases he
  · intro p₃ hp₃
    have hp₃ : (w₃.core i).posture t = some p₃ := hp₃
    rw [hcore₃, Core.park, Core.posture_alter, if_pos rfl] at hp₃
    obtain ⟨p₁, -, rfl⟩ := Option.map_eq_some_iff.1 hp₃
    exact Or.inr ⟨rfl, rfl⟩

/-- A put stays one on the way that it takes, whatever the driver does. -/
theorem puts (h : s.Visits c) (hi : c.world.Has i) (hpre : c.todo = pre ++ .drain i :: rest)
    {x : EffectId} (hp : s.Puts i rest t x [] c) (hlog : c.Logs i rest log c') :
    s.Puts i rest t x log c' := by
  induction hlog with
  | start => exact hp
  | before hl busy hc ih =>
    obtain ⟨pre', hpre'⟩ := hl.loop_below h hi hpre
    exact ih.busy (hl.visits h) (hl.has h hi) hpre' busy hc (Or.inl ⟨rfl, rfl⟩)
  | takes hl loop next hc ih => exact ih.take (hl.visits h) (hl.has h hi) loop next hc
  | works hl busy hc ih =>
    obtain ⟨pre', hpre'⟩ := hl.loop_below h hi hpre
    exact ih.busy (hl.visits h) (hl.has h hi) hpre' busy hc (Or.inr ⟨_, _, _, rfl, rfl⟩)

/--
A body that yielded a put on its own is polled again only after every task that the delivery woke,
with everything that follows from this.
-/
theorem put_first (h : s.Visits c) (hi : c.world.Has i) {b b' : Body} {target : Target}
    {a : Option Answer} {rest' : List Instr}
    (hput : c.todo = .trigger ⟨i, t⟩ b [] (.put target) :: pre ++ .drain i :: rest)
    (hl : (c.world.core i).Live t) (hlog : c.Logs i rest log c')
    (hpoll : c'.todo = .poll ⟨i, t⟩ b' a :: rest') :
    ∃ log₀ log₁ log₂ q woken signal, q.reply? = some (c.world.engine i).nextEffect ∧
      log = log₀ ++ ⟨.errand q, woken ++ [.settle (c.world.engine i).nextEffect signal]⟩ ::
        (log₁ ++ log₂) ∧
      Unfolds (woken.map .reaction) log₁ [] ∧ log₂ ≠ [] := by
  obtain ⟨c₁, c₂, c₃, x₁, x₂, hc₁, htodo₁, hx₁, hc₂, htodo₂, hx₂, hc₃, htodo₃, hputs⟩ :=
    h.puts_of_trigger hi hput hl
  have hne : ∀ {d : Config} {y : Instr} {ys : List Instr}, d.todo = y :: ys →
      (∀ b a, y ≠ .poll ⟨i, t⟩ b a) → c' ≠ d := by
    rintro d y ys hd hy rfl
    obtain ⟨rfl, -⟩ := List.cons.inj (hpoll.symm.trans hd)
    exact hy _ _ rfl
  have hbusy : ∀ {d : Config} {y : Instr}, d.todo = y :: pre ++ .drain i :: rest →
      d.todo ≠ .drain i :: rest := by
    intro d y hd heq
    have hlen := congrArg List.length (hd.symm.trans heq)
    simp only [List.cons_append, List.length_cons, List.length_append] at hlen
    omega
  have hlog₁ := hlog.forward (hbusy hput) hc₁ (hne hput (by simp))
  have hlog₂ := hlog₁.forward (hbusy htodo₁) hc₂ (hne htodo₁ hx₁)
  have hlog₃ := hlog₂.forward (hbusy htodo₂) hc₃ (hne htodo₂ hx₂)
  have hv₁ := h.step hc₁
  have hv₂ := hv₁.step hc₂
  have hv₃ := hv₂.step hc₃
  have hi₁ := (h.knows.has_iff hc₁ i).2 hi
  have hi₂ := (hv₁.knows.has_iff hc₂ i).2 hi₁
  have hi₃ := (hv₂.knows.has_iff hc₃ i).2 hi₂
  have hv' := hlog₃.visits hv₃
  have hp := hv₃.puts hi₃ htodo₃ hputs hlog₃
  cases hp with
  | waits _ _ _ _ sleeps | underway _ _ _ _ _ _ _ sleeps | settles _ _ _ _ _ _ _ _ sleeps =>
    exact absurd sleeps (hv'.not_polled hpoll)
  | done reply others last => exact ⟨_, _, _, _, _, _, reply, rfl, others, last⟩

end Scenario.Visits

end SagaMachine
