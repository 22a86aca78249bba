import SagaMachine.Proofs.Awaiting

/-!
# The sequel of a cancellation

A cancellation tears down a subtree, its root last. Only the root may have a live parent, so that
nothing is left to be done for the parents of the others; what is to be done for the parent of the
root is the only sequel, and it follows at once.

Main statement: `Scenario.Visits.sequels`.
-/

namespace SagaMachine

/-- The parent of an attached task is not live any more. -/
def Core.Orphan (k : Core) (t : TaskId) : Prop :=
  t < k.nextTask ∧ ∀ {p q}, k.posture t = some p → p.parent = some q → p.detached = false →
    q < k.nextTask ∧ ¬ k.Live q

/-- A frame tears down tasks that were cancelled. -/
def Instr.Tears : Instr → Prop
  | .cancelEach .. | .cancelOne .. => True
  | _ => False

/-- Only the last task that a frame tears down may have a live parent. -/
def Instr.Fated (k : Core) : Instr → Prop
  | .cancelEach _ order cascades => (order ≠ [] → cascades = []) ∧ ∀ t ∈ order.dropLast, k.Orphan t
  | .cancelOne turn _ rest cascades => cascades = [] ∧ ∀ t ∈ (turn.task :: rest).dropLast, k.Orphan t
  | _ => True

section

variable {i : MiddlewareId} {k k' : Core} {past es : List Event} {x y : Instr} {G : List Instr}
  {D : List TaskId} {t : TaskId}

theorem Instr.Fated.of_not_tears (h : ¬ x.Tears) : x.Fated k := by
  cases x with
  | cancelEach | cancelOne => exact absurd trivial h
  | _ => trivial

theorem Instr.Fated.mono (h : x.Fated k) (hk : ∀ t, k.Orphan t → k'.Orphan t) : x.Fated k' := by
  cases x with
  | cancelEach => exact ⟨h.1, fun t ht => hk t (h.2 t ht)⟩
  | cancelOne => exact ⟨h.1, fun t ht => hk t (h.2 t ht)⟩
  | _ => trivial

theorem Core.Orphan.cascade (h : k.Orphan t) (outcome : Outcome) : k.cascade t outcome = none :=
  cascade_eq_none fun _ hp _ hq hd => (h.2 hp hq hd).2

/-- Whose parent is not live stays without one. -/
theorem Turnover.orphan {v v' : View} (h : Turnover i v v') (ha : v'.alive = true)
    (ht : v.core.Orphan t) : v'.core.Orphan t := by
  have hborn : ∀ {q}, q < v.core.nextTask → ¬ v.core.Live q →
      q < v'.core.nextTask ∧ ¬ v'.core.Live q :=
    fun hq hl => ⟨(h.not_live ha hq).1, (h.not_live ha hq).2 hl⟩
  refine ⟨(h.not_live ha ht.1).1, fun {p' q} hp' hq hd => ?_⟩
  cases h with
  | evolves _ _ _ core =>
    cases hp : v.core.posture t with
    | none => exact absurd ht.1 (Nat.not_lt.2 (core.new hp hp').1)
    | some p =>
      obtain ⟨p'', hp'', h1, h2, -⟩ := core.kept hp
      obtain rfl : p'' = p' := Option.some.inj (hp''.symm.trans hp')
      obtain ⟨hb, hl⟩ := ht.2 hp (h1 ▸ hq) (h2 ▸ hd)
      exact hborn hb hl
  | records _ _ _ _ _ _ _ posture =>
    rw [posture] at hp'
    obtain ⟨-, p, hp, h1, h2, -⟩ := Core.of_posture_bury hp'
    obtain ⟨hb, hl⟩ := ht.2 hp (h1 ▸ hq) (h2 ▸ hd)
    exact hborn hb hl
  | dies alive =>
    rw [alive] at ha
    cases ha

/-- Only cancellations leave something to be torn down. -/
theorem Does.tears (h : Does i past x k k' G D es) (hy : y ∈ G) (ht : y.Tears) :
    x.Tears ∨ ∃ t, x = .cancel i t := by
  cases h with
  | cancel => exact Or.inr ⟨_, rfl⟩
  | cancelledAll | cancelledLate | cancelEach | cancelHalts | cancelOne => exact Or.inl trivial
  | start hb | resume hb | wake _ _ hb =>
    cases hb <;> simp only [List.mem_singleton, List.not_mem_nil] at hy <;> subst hy <;> exact ht.elim
  | errand hG =>
    rcases hG with rfl | ⟨g, rfl, hg⟩
    · cases hy
    · cases List.mem_singleton.1 hy
      cases y with
      | cancelEach | cancelOne => exact hg.elim
      | _ => exact ht.elim
  | poll hg | advance hg =>
    cases List.mem_singleton.1 hy
    cases y with
    | cancelEach | cancelOne => exact hg.elim
    | _ => exact ht.elim
  | abortDone | conclude | cascadeComplete =>
    obtain ⟨c, -, rfl⟩ := List.mem_map.1 hy
    exact ht.elim
  | abort =>
    rcases List.mem_append.1 hy with hy | hy
    · obtain ⟨c, -, rfl⟩ := List.mem_map.1 hy
      exact ht.elim
    · cases List.mem_singleton.1 hy
      exact ht.elim
  | _ =>
    cases y with
    | cancelEach | cancelOne => simp at hy
    | _ => exact ht.elim

/-- A frame that tears down hands on what is left, and the sequel comes last. -/
theorem Does.fated (h : Does i past x k k' G D es) (hx : x.Fated k) (ht : x.Tears)
    (hk : ∀ t, k.Orphan t → k'.Orphan t) (hy : y ∈ G) : y.Fated k' := by
  cases h with
  | cancelledAll =>
    obtain ⟨c, -, rfl⟩ := List.mem_map.1 hy
    trivial
  | @cancelledLate _ t rest =>
    cases List.mem_singleton.1 hy
    cases hx.1 (by simp)
    refine ⟨fun _ => rfl, fun u hu => hk u (hx.2 u ?_)⟩
    rw [List.dropLast_cons_of_ne_nil (fun h => by rw [h] at hu; cases hu)]
    exact List.mem_cons_of_mem _ hu
  | cancelEach =>
    cases List.mem_singleton.1 hy
    exact ⟨hx.1 (by simp), fun u hu => hk u (hx.2 u hu)⟩
  | @cancelHalts _ t rest =>
    cases List.mem_singleton.1 hy
    refine ⟨fun _ => hx.1, fun u hu => hk u (hx.2 u ?_)⟩
    rw [List.dropLast_cons_of_ne_nil (fun h => by rw [h] at hu; cases hu)]
    exact List.mem_cons_of_mem _ hu
  | @cancelOne _ t rest cascades _ c _ hb =>
    cases List.mem_singleton.1 hy
    obtain ⟨hnil, horphan⟩ := hx
    subst hnil
    refine ⟨fun hne => ?_, fun u hu => hk u (horphan u ?_)⟩
    · -- it is not the last one, so its parent is not live
      have ho : k.Orphan t := horphan t (by
        rw [List.dropLast_cons_of_ne_nil hne]
        exact List.mem_cons_self)
      cases hb with
      | absent => rfl
      | gone => simp [ho.cascade]
    · rw [List.dropLast_cons_of_ne_nil (fun h => by rw [h] at hu; cases hu)]
      exact List.mem_cons_of_mem _ hu
  | _ => exact ht.elim

end

namespace Scenario.Visits

variable {s : Scenario} {c c' : Config} {w : World} {i : MiddlewareId} {t : TaskId} {x : Instr}
  {todo : List Instr}

/-- The root of a cancelled subtree is the only one with a live parent. -/
theorem orphan_of_cancel (h : s.Visits ⟨.cancel i t :: todo, w⟩) (hi : w.Has i) {u : TaskId}
    (hl : (w.core i).Live t) (hu : u ∈ ((w.engine i).tasks.cancellationOrder t).dropLast)
    (hc : Config.step ⟨.cancel i t :: todo, w⟩ = some c') : (c'.world.core i).Orphan u := by
  have hg := h.grounds rfl hi
  have hF := hg.family
  have hlive : (w.engine i).tasks.isLive t = true := World.live_iff.2 hl
  have hmem := fun u => Tasks.mem_cancellationOrder (u := u) hF hlive
  obtain ⟨pre, hpre, hbelow⟩ := Tasks.cancellationOrder_eq hF hlive
  rw [hpre, List.dropLast_concat] at hu
  obtain ⟨hbu, hut⟩ := hbelow u hu
  obtain ⟨n, hn, -⟩ := Tasks.isLive_iff.1 hbu.isLive
  -- all of them are terminal now
  set w₁ := ((w.engine i).tasks.cancellationOrder t).foldl
    (fun w u => w.setTask i u fun n => { n with status := .cancelled }) w with hw₁
  have hstep : c' = ⟨.cancelEach i ((w.engine i).tasks.cancellationOrder t) [] :: todo, w₁⟩ := by
    obtain rfl : (w.execCancel i t).followedBy todo = c' := Option.some.inj hc
    simp only [World.execCancel, hlive, if_true, Config.followedBy]
    rfl
  have htask : ∀ u, w₁.task? i u = if u ∈ (w.engine i).tasks.cancellationOrder t then
      (w.task? i u).map fun n => { n with status := .cancelled } else w.task? i u :=
    World.task?_foldl_setStatus hi _ _
  have hT : Turnover i (Config.view ⟨.cancel i t :: todo, w⟩ i) (c'.view i) := h.turnover hi hc
  have ha : (c'.view i).alive = true := by
    cases hT with
    | evolves alive => exact alive.trans (Config.alive_iff.2 (h.alive_of_owner rfl))
    | records alive => exact alive.trans (Config.alive_iff.2 (h.alive_of_owner rfl))
    | dies alive past core =>
      have hcore : c'.world.core i = Engine.core {} := core
      have hp : (c'.world.core i).posture u = some { n with status := .cancelled }.posture := by
        rw [hstep, World.posture_core, htask, if_pos ((hmem u).2 hbu), World.task?, hn]
        rfl
      rw [hcore] at hp
      cases hp
  have hborn : ∀ {u n}, w.task? i u = some n → u < (c'.world.core i).nextTask := by
    intro u n hn
    have hp : (w.core i).posture u = some n.posture := by
      rw [World.posture_core, hn]
      rfl
    exact (hT.not_live ha (hg.orderly.tasks hp).number).1
  refine ⟨hborn hn, fun {p q} hp hq _ => ?_⟩
  have hp : (c'.world.core i).posture u = some p := hp
  rw [hstep, World.posture_core, htask, if_pos ((hmem u).2 hbu), World.task?, hn] at hp
  cases hp
  have hbq : (w.engine i).tasks.Below t q := hbu.of_parent hF hut hn hq
  obtain ⟨m, hm, -⟩ := Tasks.isLive_iff.1 hbq.isLive
  refine ⟨hborn hm, ?_⟩
  rintro ⟨p, hp, hlp⟩
  rw [hstep, World.posture_core, htask, if_pos ((hmem q).2 hbq), World.task?, hm] at hp
  cases hp
  cases hlp

/-- Wherever a scenario comes to, a cancellation has no sequel but that of its root. -/
theorem sequels (h : s.Visits c) (hi : c.world.Alive i) : ∀ x ∈ framesOf i c.todo,
    x.Fated (c.world.core i) := by
  induction h with
  | start => exact fun x hx => by cases hx
  | call =>
    intro x hx
    cases hx
  | @step c c' h hc ih =>
    have hi' := (h.knows.has_iff hc i).1 hi.has
    have ha := h.alive_of_step hi' hc hi
    have hT := h.turnover hi' hc
    have hk : ∀ t, (c.world.core i).Orphan t → (c'.world.core i).Orphan t :=
      fun t => hT.orphan (Config.alive_iff.2 hi)
    intro y hy
    obtain ⟨todo, w⟩ := c
    cases todo with
    | nil => cases hc
    | cons x rest =>
      by_cases hx : x.owner? = some i
      · obtain ⟨next, hn, rfl⟩ := Option.map_eq_some_iff.1 hc
        have hF : framesOf i (x :: rest) = x :: framesOf i rest := by simp [framesOf, hx]
        rw [show (next.followedBy rest).todo = next.todo ++ rest from rfl, framesOf_append] at hy
        rcases List.mem_append.1 hy with hy | hy
        · by_cases ht : y.Tears
          · have hkn := h.knows
            have hxk : x.Knows w.past := by
              rcases hkn.todo with ⟨o, ho⟩ | hxs
              · cases ho
                cases hx
              · exact hxs x List.mem_cons_self
            obtain ⟨k', es, hadv, hdoes⟩ := World.Enacts.exec hi' hkn.world hxk hx hn
            have hcore : next.world.core i = k' := hadv.core
            rcases hdoes.tears hy ht with hxt | ⟨t, rfl⟩
            · refine (hdoes.fated (ih ha x ?_) hxt (fun t => ?_) hy : y.Fated k').mono ?_
              · rw [hF]
                exact List.mem_cons_self
              · rw [← hcore]
                exact hk t
              · rw [← hcore]
                exact fun t => id
            · have hstep : (w.execCancel i t) = next := Option.some.inj hn
              by_cases hl : (w.core i).Live t
              · have hlive : (w.engine i).tasks.isLive t = true := World.live_iff.2 hl
                rw [← hstep] at hy
                simp only [World.execCancel, hlive, if_true] at hy
                obtain rfl := List.mem_singleton.1 (List.mem_filter.1 hy).1
                exact ⟨fun _ => rfl, fun u hu => h.orphan_of_cancel hi' hl hu hc⟩
              · have hlive : (w.engine i).tasks.isLive t = false := by
                  rw [← Bool.not_eq_true]
                  exact fun hh => hl (World.live_iff.1 hh)
                rw [← hstep] at hy
                simp only [World.execCancel, hlive] at hy
                cases hy
          · exact .of_not_tears ht
        · refine (ih ha y ?_).mono hk
          rw [hF]
          exact List.mem_cons_of_mem _ hy
      · obtain ⟨next, hnext, -, hreq⟩ := Config.foreign_of_step h.knows hx hc
        subst hnext
        rw [show (next.followedBy rest).todo = next.todo ++ rest from rfl, framesOf_append] at hy
        rcases List.mem_append.1 hy with hy | hy
        · have := hreq y hy
          refine .of_not_tears fun ht => ?_
          cases y with
          | cancelEach | cancelOne => exact this.elim
          | _ => exact ht.elim
        · refine (ih ha y ?_).mono hk
          have hF : framesOf i (x :: rest) = framesOf i rest := by simp [framesOf, hx]
          rw [hF]
          exact hy

end Scenario.Visits

end SagaMachine
