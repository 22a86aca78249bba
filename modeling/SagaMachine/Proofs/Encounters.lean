import SagaMachine.Proofs.Quiescence

/-!
# What a step is to a middleware

An instruction is one of a middleware's own, or it belongs to user code or to another
middleware and intervenes at most, or it drops a body of the middleware, or the middleware as a
whole. That is what `Config.moves_of_step` says of the views before and after; here the
instruction is kept in sight.

Main statement: `Config.meets_of_step`.
-/

namespace SagaMachine

section

variable {i : MiddlewareId} {w w' : World} {x : Instr} {rest : List Instr} {c next : Config}

/-- What an instruction is to a middleware, with the others that are left and what it comes to. -/
inductive World.Meets (i : MiddlewareId) (w : World) (x : Instr) (rest : List Instr)
    (next : Config) : Prop
  | own {k' : Core} {es : List Event} (owner : x.owner? = some i)
      (advances : Advances i w next.world k' es)
      (does : Does i (w.past i) x (w.core i) k' (framesOf i next.todo) (dropsOf i next.todo) es)
  | foreign {k' : Core} {es : List Event} (owner : x.owner? ≠ some i)
      (advances : Advances i w next.world k' es)
      (intervenes : Intervenes i (w.past i) (w.core i) k' (framesOf i next.todo) es)
  | drops {t : TaskId} {b : Body} (head : x = .dropBody ⟨i, t⟩ b)
      (result : next = w.execDropBody ⟨i, t⟩ b)
  | dies (head : x = .op .outside .empty (.drop i)) (last : rest = [])
      (frames : framesOf i next.todo = []) (core : next.world.core i = Engine.core {})
      (past : next.world.past i = w.past i) (alive : next.world.alive? i = some false)

namespace World

theorem Spares.meets (hi : w.Has i) (hx : x.owner? ≠ some i) (h : w.Spares i next) :
    w.Meets i x rest next := by
  have hq : Intervenes i (w.past i) (w.core i) (w.core i) (framesOf i next.todo) [] := by
    rw [framesOf_spares h.todo]
    exact .quietly fun e he => by cases he
  exact .foreign hx ((Advances.start hi).untouched h.untouched) hq

theorem Bears.meets (hi : w.Has i) (hx : x.owner? ≠ some i) (h : w.Bears i next) :
    w.Meets i x rest next := by
  rcases h with h | ⟨-, -, k', es, h, hk⟩
  · exact h.meets hi hx
  · exact .foreign hx h hk

/-- What is left of a middleware that is dropped. -/
theorem meets_of_opDrop (hi : w.Has i) (hu : Untouched i w w') :
    w.Meets i (.op .outside .empty (.drop i)) [] (w'.opDrop .outside i) := by
  cases hm : w'.living? i with
  | none =>
    have hs : w.Spares i (w'.opDrop .outside i) := by
      simp only [opDrop, hm]
      exact .one hu (Spares.neutral rfl rfl)
    exact hs.meets hi fun ho => by cases ho
  | some m =>
    have htodo : (w'.opDrop .outside i).todo =
        dropBodies i m.engine.tasks ++ [.reply .outside "drop_mw" (.bool true)] := by
      simp only [opDrop, hm]
      rfl
    let gone : Middleware := { m with alive := false, engine := { outcomes := m.engine.outcomes } }
    have hworld : (w'.opDrop .outside i).world =
        { w' with middlewares := w'.middlewares.insert i gone } := by
      simp only [opDrop, hm]
      rfl
    refine .dies rfl rfl ?_ ?_ ?_ ?_
    · rw [htodo, framesOf_append, framesOf_dropBodies]
      rfl
    · rw [hworld]
      simp [core, engine, Engine.core, gone]
    · rw [hworld]
      exact hu.past
    · rw [hworld]
      simp [alive?, gone]

/-- An operation from outside. -/
theorem meets_of_op (hk : w'.Knows) (hi : w.Has i) (hu : Untouched i w w') (o : Op) :
    w.Meets i (.op .outside .empty o) [] (w'.runOp .outside .empty o) := by
  by_cases ho : o = .drop i
  · subst ho
    exact meets_of_opDrop hi hu
  · exact ((Bears.runOp hk .outside .empty o (Or.inr ho)).of_untouched hu).meets hi fun h => by cases h

end World

/-- What the first instruction is to a middleware. -/
theorem Config.meets_of_step {c' : Config} (hk : Config.Knows ⟨x :: rest, w⟩) (hi : w.Has i)
    (hc : Config.step ⟨x :: rest, w⟩ = some c') :
    ∃ next, x.exec w = some next ∧ c' = next.followedBy rest ∧ w.Meets i x rest next := by
  obtain ⟨next, hn, rfl⟩ := Option.map_eq_some_iff.1 hc
  refine ⟨next, hn, rfl, ?_⟩
  rcases hk.todo with ⟨o, ho⟩ | hxs
  · cases ho
    obtain ⟨w', hs, rfl⟩ := Option.map_eq_some_iff.1 hn
    exact World.meets_of_op (World.Teaches.spend (.start hk.world) hs).knows hi
      (World.Enacts.GoesOn.spend (fun i => .refl i w) hs i) o
  · have hxk : x.Knows w.past := hxs x List.mem_cons_self
    cases ho : x.owner? with
    | some j =>
      by_cases hij : i = j
      · subst hij
        obtain ⟨k', es, ha, hd⟩ := World.Enacts.exec hi hk.world hxk ho hn
        exact .own ho ha hd
      · have hne : x.owner? ≠ some i := by simpa [ho] using fun h => hij h.symm
        exact (World.Spares.exec hij ho hn).meets hi hne
    | none =>
      have hne : x.owner? ≠ some i := by simp [ho]
      cases hd : x.drops? i with
      | none => exact (World.Bears.exec hk.world hxk ho hd hn).meets hi hne
      | some t =>
        cases x with
        | dropBody turn b =>
          obtain ⟨j, u⟩ := turn
          simp only [Instr.drops?] at hd
          split at hd
          · rename_i hij
            cases hij
            cases hn
            exact .drops rfl rfl
          · cases hd
        | _ => cases hd

end

end SagaMachine
