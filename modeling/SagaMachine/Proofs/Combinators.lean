import SagaMachine.Proofs.Members
import SagaMachine.Proofs.Starts

/-!
# Races and `all`s do what they mean

A task has started an effect, and the effect is a tree. While the tree is pending, its body is at rest
(`Config.Expects`), and only settlements of its leaves change it: each does to the wait table what the
recursion on the tree says, and the one that settles the whole tree makes the body go on with the
signal of the tree (`Scenario.Visits.expects_settled`). On a whole run (`Config.Heeds`) the task is told
one signal, or none as long as the tree is pending (`Config.Fares`).

Main statement: `Scenario.Visits.combinators_agree`.
-/

namespace SagaMachine

/-! ## Runs with their settlements -/

/-- The settlement that is performed next. -/
def Config.settlements (i : MiddlewareId) (c : Config) : List (EffectId × Signal) :=
  match c.todo with
  | .perform j (.reaction (.settle x signal)) :: _ => if j = i then [(x, signal)] else []
  | _ => []

/-- The signal of effect `n` with which its task is woken next. -/
def Config.tells (i : MiddlewareId) (n : EffectId) (c : Config) : List Signal :=
  (c.settlements i).filterMap fun p =>
    ((Waits.settle (c.world.engine i).waits p.1 p.2).wakeup.filter (·.effect = n)).map (·.signal)

/--
A run goes on from one configuration to another. On the way some effects are settled by the driver, and
the task of effect `n` is woken with some signals of it.
-/
inductive Config.Heeds (i : MiddlewareId) (n : EffectId) (c : Config) :
    List (EffectId × Signal) → List Signal → Config → Prop
  | start : Heeds i n c [] [] c
  | call {log : List (EffectId × Signal)} {told : List Signal} {w : World}
      (h : Heeds i n c log told ⟨[], w⟩) (o : Op) (budget : Nat) :
      Heeds i n c log told ⟨[.op .outside .empty o], { w with reply := none, budget }⟩
  | step {log : List (EffectId × Signal)} {told : List Signal} {c₁ c₂ : Config}
      (h : Heeds i n c log told c₁) (hc : c₁.step = some c₂) :
      Heeds i n c (log ++ c₁.settlements i) (told ++ c₁.tells i n) c₂

/-- A task goes to rest on an effect, or is at rest. -/
inductive Config.Parks (i : MiddlewareId) (t : TaskId) (b : Body) (n : EffectId) (c : Config) : Prop
  | begun {rest : List Instr} (top : c.todo = .begun ⟨i, t⟩ b [] (.pending n) :: rest)
  | leaves {rest : List Instr} (top : c.todo = .leave ⟨i, t⟩ b (.suspended n) :: rest)
  | rests (rests : c.world.rests i t = some (b, some n))

/-- A task waits for effect `n`, which is a tree in the wait table. -/
structure Config.Expects (i : MiddlewareId) (t : TaskId) (b : Body) (n : EffectId) (tree : EffectTree)
    (c : Config) : Prop where
  root : tree.root? = some n
  shown : (c.world.engine i).waits.Shows t .task tree
  parks : c.Parks i t b n

section

variable {s : Scenario} {c c' : Config} {w : World} {x y : Instr} {rest : List Instr}
  {i : MiddlewareId} {t u : TaskId} {b : Body} {n z : EffectId} {tree : EffectTree}
  {signal result : Signal} {log : List (EffectId × Signal)} {told : List Signal}

theorem Config.Heeds.precedes (h : c.Heeds i n log told c') : c.Precedes c' := by
  induction h with
  | start => exact .refl
  | call _ o budget ih => exact .call ih o budget
  | step _ hc ih => exact .step ih hc

theorem Config.settlements_settle (w : World) (z : EffectId) (signal : Signal) (rest : List Instr) :
    Config.settlements i ⟨.perform i (.reaction (.settle z signal)) :: rest, w⟩ = [(z, signal)] :=
  if_pos rfl

theorem Config.settlements_eq_nil
    (hx : ∀ z signal, x ≠ .perform i (.reaction (.settle z signal))) :
    Config.settlements i ⟨x :: rest, w⟩ = [] := by
  unfold Config.settlements
  split
  · rename_i j z signal _ htodo
    obtain ⟨rfl, -⟩ := List.cons.inj htodo
    refine if_neg ?_
    rintro rfl
    exact hx z signal rfl
  · rfl

theorem Config.tells_settle (w : World) (z : EffectId) (signal : Signal) (rest : List Instr) :
    Config.tells i n ⟨.perform i (.reaction (.settle z signal)) :: rest, w⟩ =
      (((Waits.settle (w.engine i).waits z signal).wakeup.filter (·.effect = n)).map
        (·.signal)).toList := by
  rw [Config.tells, Config.settlements_settle, List.filterMap_cons, List.filterMap_nil]
  cases ((Waits.settle (w.engine i).waits z signal).wakeup.filter (·.effect = n)).map (·.signal) <;> rfl

theorem Config.tells_eq_nil (h : c.settlements i = []) : c.tells i n = [] := by
  rw [Config.tells, h]
  rfl

/-- The task is woken if the settlement comes to its effect. -/
theorem Config.mem_tells (h : signal ∈ Config.tells i n c) : ∃ x r rest,
    c.todo = .perform i (.reaction (.settle x r)) :: rest ∧
      ∃ u, (Waits.settle (c.world.engine i).waits x r).wakeup = some u ∧ u.effect = n := by
  obtain ⟨⟨x, r⟩, hp, hs⟩ := List.mem_filterMap.1 h
  have htodo : ∃ rest, c.todo = .perform i (.reaction (.settle x r)) :: rest := by
    unfold Config.settlements at hp
    split at hp
    · split at hp
      · cases List.mem_singleton.1 hp
        rename_i rest hji htodo
        exact ⟨rest, by rw [htodo, hji]⟩
      · cases hp
    · cases hp
  obtain ⟨rest, htodo⟩ := htodo
  obtain ⟨u, hu, -⟩ := Option.map_eq_some_iff.1 hs
  obtain ⟨hwake, he⟩ := Option.filter_eq_some_iff.1 hu
  exact ⟨x, r, rest, htodo, u, hwake, of_decide_eq_true he⟩

/-! ## While nothing settles -/

theorem EffectTree.mem_of_root (h : tree.root? = some n) : n ∈ tree.ids := by
  cases tree with
  | settled => cases h
  | _ => cases h; exact List.mem_cons_self

namespace Scenario.Visits

/-- The body of a task that is parked stays at rest until an effect is settled. -/
theorem rests_unless_settled (h : s.Visits ⟨x :: rest, w⟩) (hi : w.Has i)
    (hc : Config.step ⟨x :: rest, w⟩ = some c') (hq : w.rests i t = some (b, some n))
    (hx : ∀ z signal, x ≠ .perform i (.reaction (.settle z signal)))
    (hl : (c'.world.core i).Live t) : c'.world.rests i t = some (b, some n) := by
  rcases h.rests_step hi hq hc hl with hstays | ⟨next, hn, rfl, hown, y, hy, hyt⟩
  · exact hstays
  · obtain ⟨next', hn', -, hm⟩ := Config.meets_of_step h.knows hi hc
    cases hn.symm.trans hn'
    cases hm with
    | own _ _ hd =>
      rcases hd.steps_of_turn hy hyt fun hxt => h.not_rests_in_turn hi (y := x)
        (by simp [framesOf_cons, hown]) hxt hq with ⟨r, -, -, p, hp, hpend⟩ | ⟨z, signal, hxs, -⟩
      · obtain ⟨node, hn, -, hnp⟩ := World.rests_eq_some.1 hq
        rw [World.posture_core, hn] at hp
        cases hp
        cases hnp.symm.trans hpend
      · exact absurd hxs (hx z signal)
    | foreign ho => exact absurd hown ho
    | drops hxd => rw [hxd] at hown; cases hown
    | dies hxd => rw [hxd] at hown; cases hown

/-- A task goes on waiting while others are busy. -/
theorem expects_aside (h : s.Visits ⟨x :: rest, w⟩) (hi : w.Has i)
    (hc : Config.step ⟨x :: rest, w⟩ = some c') (he : Config.Expects i t b n tree ⟨x :: rest, w⟩)
    (hx : ∀ z signal, x ≠ .perform i (.reaction (.settle z signal)))
    (hl : (w.core i).Live t) (hl' : (c'.world.core i).Live t) : c'.Expects i t b n tree := by
  obtain ⟨root, shown, parks⟩ := he
  cases parks with
  | begun top =>
    obtain ⟨rfl, rfl⟩ := List.cons.inj top
    cases (Config.step_begunPending hl b).symm.trans hc
    exact ⟨root, shown, .leaves rfl⟩
  | leaves top =>
    obtain ⟨rfl, rfl⟩ := List.cons.inj top
    cases hc
    refine ⟨root, shown.congr fun z _ => ?_, .rests (World.rests_leave hi hl rfl)⟩
    have hi₁ : (w.setEngine i fun e => { e with current := none }).Has i := World.has_setEngine.2 hi
    show ((w.execLeave ⟨i, t⟩ b (.suspended n)).world.engine i).waits.get? z = _
    simp only [World.execLeave, World.park, World.setTask, World.engine_setEngine hi₁,
      World.engine_setEngine hi]
  | rests hq =>
    refine ⟨root, shown.congr fun z hz => ?_, .rests (h.rests_unless_settled hi hc hq hx hl')⟩
    obtain ⟨wait, hw, ht, -⟩ := shown.place hz
    have hturn (hown : x.owner? = some i) : x.turn? ≠ some t := fun hxt =>
      h.not_rests_in_turn hi (y := x) (by simp [framesOf_cons, hown]) hxt hq
    exact (h.entry_kept hi hc hturn hx hl' hw ht).trans hw.symm

end Scenario.Visits

/-! ## A settlement -/

/-- A settlement steps the task that it wakes, and no other one. -/
theorem Does.of_settle {past es : List Event} {k k' : Core} {G : List Instr} {D : List TaskId}
    (h : Does i past (.perform i (.reaction (.settle z signal))) k k' G D es) :
    k'.waits = (Waits.settle k.waits z signal).waits ∧
      es = (Waits.settle k.waits z signal).passages.map Passage.event ∧ ∀ y ∈ G, y.turn? = some t →
      ∃ u, (Waits.settle k.waits z signal).wakeup = some u ∧ u.task = t := by
  cases h with
  | settle => exact ⟨rfl, rfl, fun y hy => absurd hy List.not_mem_nil⟩
  | wake _ hu hb => exact ⟨hb.waits_eq, rfl, fun y hy ht => ⟨_, hu, (hb.turn_of_mem hy ht).1⟩⟩

/-- Where a job is about to be performed, a task that waits is at rest. -/
theorem Config.Expects.rests {job : Job} (h : Config.Expects i t b n tree ⟨.perform i job :: rest, w⟩) :
    w.rests i t = some (b, some n) := by
  cases h.parks with
  | begun top | leaves top => cases top
  | rests hq => exact hq

/-- A settlement that comes to the top of a tree wakes its task. -/
theorem Waits.Finishes.wakes {waits waits' : Waits} {r : EffectId} {ps : List Passage}
    (h : waits.Finishes t .task tree z signal result r ps waits') :
    waits.settle z signal = ⟨ps, some ⟨t, r, result⟩, waits'⟩ := by
  rw [h.climbs, Waits.climb, Waits.Climb.after, List.append_nil]

namespace Scenario.Visits

section

variable (h : s.Visits ⟨.perform i (.reaction (.settle z signal)) :: rest, w⟩)
include h

theorem settle_step
    (hc : Config.step ⟨.perform i (.reaction (.settle z signal)) :: rest, w⟩ = some c') :
    (c'.world.engine i).waits = (Waits.settle (w.engine i).waits z signal).waits ∧
      c'.world.past i = ((Waits.settle (w.engine i).waits z signal).passages.map Passage.event).reverse ++
        w.past i ∧
      ∀ q, w.rests i t = some q → (c'.world.core i).Live t →
        (∀ u, (Waits.settle (w.engine i).waits z signal).wakeup = some u → u.task ≠ t) →
        c'.world.rests i t = some q := by
  have hi := (h.alive_of_owner rfl).has
  obtain ⟨next, hn, rfl, hm⟩ := Config.meets_of_step h.knows hi hc
  cases hm with
  | own _ hadv hd =>
    obtain ⟨hwaits, rfl, hturn⟩ := hd.of_settle (t := t)
    refine ⟨(congrArg Core.waits hadv.core).trans hwaits, hadv.past, fun q hq hl hno => ?_⟩
    rcases h.rests_step hi hq hc hl with hstays | ⟨next', hn', -, -, y, hy, hyt⟩
    · exact hstays
    · cases hn.symm.trans hn'
      obtain ⟨u, hu, hut⟩ := hturn y hy hyt
      exact absurd hut (hno u hu)
  | foreign ho => exact absurd rfl ho
  | drops hxd | dies hxd => cases hxd

variable (he : Config.Expects i t b n tree ⟨.perform i (.reaction (.settle z signal)) :: rest, w⟩)
include he

/-- What is pending of a task that waits for a tree is in the tree. -/
theorem mem_of_task {x : EffectId} {wait : Wait} (hx : (w.engine i).waits.get? x = some wait)
    (ht : wait.task = t) : x ∈ tree.ids := by
  obtain ⟨r, rw, hr, hl, hrt, hu⟩ := h.forest_performs.1.exists_root hx
  obtain ⟨node, hn, -, -, hpend⟩ := h.parked_performs hr hl
  obtain ⟨node', hn', -, hpend'⟩ := World.rests_eq_some.1 he.rests
  rw [hrt, ht, hn'] at hn
  cases hn
  cases hpend.symm.trans hpend'
  clear hx
  induction hu with
  | root => exact EffectTree.mem_of_root he.root
  | member _ hp hx ih => exact he.shown.mem_of_member ih hp hx

variable (hc : Config.step ⟨.perform i (.reaction (.settle z signal)) :: rest, w⟩ = some c')
include hc

/-- Settlements elsewhere leave a tree alone. -/
theorem expects_elsewhere (hz : z ∉ tree.ids) :
    ((c'.world.core i).Live t → c'.Expects i t b n tree) ∧
      Config.tells i n ⟨.perform i (.reaction (.settle z signal)) :: rest, w⟩ = [] := by
  obtain ⟨hwaits, -, hrests⟩ := h.settle_step (t := t) hc
  have htask {wait : Wait} (hw : (w.engine i).waits.get? z = some wait) : wait.task ≠ t :=
    fun ht => hz (h.mem_of_task he hw ht)
  have hother {u : Wakeup} (hu : (Waits.settle (w.engine i).waits z signal).wakeup = some u) :
      u.task ≠ t := by
    cases hw : (w.engine i).waits.get? z with
    | none =>
      rw [Waits.settle_of_absent hw] at hu
      cases hu
    | some wait =>
      rw [Waits.settle_eq hw] at hu
      rw [((Waits.settles_climb signal (h.climbable_performs hw)).wakeup hu).1]
      exact htask hw
  refine ⟨fun hl => ⟨he.root, he.shown.congr fun y hy => ?_,
    .rests (hrests _ he.rests hl fun u hu => hother hu)⟩, ?_⟩
  · obtain ⟨wy, hwy, hyt, -⟩ := he.shown.place hy
    rw [hwaits]
    cases hw : (w.engine i).waits.get? z with
    | none => rw [Waits.settle_of_absent hw]
    | some wait =>
      have hyz : y ≠ z := by
        rintro rfl
        exact hz hy
      have hwy' : ((w.engine i).waits.erase z).get? y = some wy := by
        rw [Table.get?_erase, if_neg hyz, hwy]
      rw [Waits.settle_eq hw, hwy]
      exact (Waits.settles_climb signal (h.climbable_performs hw)).other hwy'
        (hyt ▸ Ne.symm (htask hw))
  · refine List.eq_nil_iff_forall_not_mem.2 fun told hm => ?_
    obtain ⟨x, r, rest', htodo, u, hu, rfl⟩ := Config.mem_tells hm
    cases htodo
    obtain ⟨wu, hwu, hut, -⟩ := h.wakeup_performs hu
    obtain ⟨wn, hwn, hnt, -⟩ := he.shown.place (EffectTree.mem_of_root he.root)
    cases hwu.symm.trans hwn
    exact hother hu (hut.symm.trans hnt)

/--
A settlement does to the wait table what the recursion on the tree says, and it wakes the task if it
settles the whole tree.
-/
theorem expects_settled : (tree.settle z signal).signal? = none ∧
        ((c'.world.core i).Live t → c'.Expects i t b n (tree.settle z signal)) ∧
        Config.tells i n ⟨.perform i (.reaction (.settle z signal)) :: rest, w⟩ = [] ∨
      ∃ result, tree.settle z signal = .settled result ∧
        Config.tells i n ⟨.perform i (.reaction (.settle z signal)) :: rest, w⟩ = [result] ∧
        c'.todo = b.opens ⟨i, t⟩ (some result) :: rest ∧ n ∈ endedIn (c'.world.past i) := by
  by_cases hz : z ∈ tree.ids
  · obtain ⟨hwaits, hpast, hrests⟩ := h.settle_step (t := t) hc
    obtain ⟨wait, hw, -⟩ := he.shown.place hz
    have hname : LeafName (w.past i) z := by
      rcases h.knows.todo with ⟨o, ho⟩ | hk
      · cases ho
      · exact hk _ List.mem_cons_self
    have hleaf := (h.grounds rfl (h.alive_of_owner rfl).has).tabled.leaf hw hname
    obtain ⟨hF, hW⟩ := h.forest_performs
    rcases he.shown.follows hF hW hz hw hleaf signal with
      ⟨result, r, ps, waits', hfin⟩ | ⟨ps, waits', hrem⟩
    · right
      cases he.root.symm.trans hfin.root
      have hwake := hfin.wakes
      obtain ⟨body, w', hq, hstep⟩ := h.wakes_performs (congrArg Waits.Climb.wakeup hwake)
      cases hq.symm.trans he.rests
      refine ⟨result, hfin.settled, ?_, ?_, ?_⟩
      · rw [Config.tells_settle, hwake]
        simp
      · cases hstep.symm.trans hc
        rfl
      · have hn := EffectTree.mem_of_root he.root
        obtain ⟨wn, hwn, -⟩ := he.shown.place hn
        rw [hpast, mem_endedIn_onto, endedIn_passages]
        refine Or.inl ((Waits.spends_settle ..).listed.2 ⟨⟨wn, hwn⟩, ?_⟩)
        rw [hwake]
        exact hfin.gone n hn
    · left
      have hnone : (Waits.settle (w.engine i).waits z signal).wakeup = none := by rw [hrem.ends]
      refine ⟨hrem.shown.pending, fun hl =>
        ⟨hrem.root.trans he.root, ?_, .rests (hrests _ he.rests hl fun u hu => ?_)⟩, ?_⟩
      · rw [hwaits, hrem.ends]
        exact hrem.shown
      · cases hnone.symm.trans hu
      · rw [Config.tells_settle, hnone]
        rfl
  · rw [he.shown.settle_of_not_mem hz]
    exact Or.inl ⟨he.shown.pending, h.expects_elsewhere he hc hz⟩

end

end Scenario.Visits

/-! ## Runs -/

/-- What has become of effect `n` of a task, which is a tree, and which signals the task was told. -/
inductive Config.Fares (i : MiddlewareId) (t : TaskId) (b : Body) (n : EffectId) (tree : EffectTree)
    (c : Config) : List Signal → Prop
  /-- The tree is pending, and the task waits. -/
  | waits (expects : c.Expects i t b n tree) : Fares i t b n tree c []
  /-- The tree has settled, and the task was told its signal. -/
  | told {signal : Signal} (settled : tree = .settled signal) (ended : n ∈ endedIn (c.world.past i)) :
      Fares i t b n tree c [signal]
  /-- The task was torn down before. -/
  | torn (gone : ¬ (c.world.core i).Live t) : Fares i t b n tree c []

namespace Scenario.Visits

variable {told : List Signal}

/-- An effect that has come to its end wakes nobody. -/
theorem tells_of_ended (h : s.Visits c) (hn : n ∈ endedIn (c.world.past i)) : c.tells i n = [] := by
  refine List.eq_nil_iff_forall_not_mem.2 fun told hm => ?_
  obtain ⟨x, r, rest, htodo, u, hu, rfl⟩ := Config.mem_tells hm
  obtain ⟨todo, w⟩ := c
  obtain rfl : todo = _ := htodo
  have ha := h.alive_of_owner (i := i) rfl
  obtain ⟨wu, hwu, -⟩ := h.wakeup_performs hu
  exact (((h.kept ha.has).accounts (Config.alive_iff.2 ha)).entries hwu).2 hn

/-- A task that is not live is not woken. -/
theorem tells_of_dead {p : Option EffectId} {e : Effect} (h : s.Visits c)
    (hn : .triggered t n p e ∈ c.world.past i) (hl : ¬ (c.world.core i).Live t) :
    c.tells i n = [] := by
  refine List.eq_nil_iff_forall_not_mem.2 fun told hm => ?_
  obtain ⟨x, r, rest, htodo, u, hu, rfl⟩ := Config.mem_tells hm
  obtain ⟨todo, w⟩ := c
  obtain rfl : todo = _ := htodo
  have ha := h.alive_of_owner (i := i) rfl
  have hk := h.kept ha.has
  obtain ⟨wu, hwu, hut, hlink⟩ := h.wakeup_performs hu
  obtain ⟨⟨e', he'⟩, -⟩ := (hk.accounts (Config.alive_iff.2 ha)).entries hwu
  obtain ⟨rfl, -⟩ := hk.regular.triggered_once he' hn
  obtain ⟨node, hnode, hstatus, -⟩ := h.parked_performs hwu hlink
  refine hl ⟨node.posture, ?_, by rw [TaskNode.posture, hstatus]; rfl⟩
  rw [World.posture_core, hnode]
  rfl

/-- One step of a run. -/
theorem fares_step {p : Option EffectId} {e : Effect} (h : s.Visits c) (hi : c.world.Has i)
    (hc : c.step = some c') (hn : .triggered t n p e ∈ c.world.past i)
    (hback : (c'.world.core i).Live t → (c.world.core i).Live t) (hf : c.Fares i t b n tree told) :
    c'.Fares i t b n (tree.settleAll (c.settlements i)) (told ++ c.tells i n) := by
  cases hf with
  | told settled ended =>
    rw [h.tells_of_ended ended, List.append_nil, settled, EffectTree.settleAll_settled]
    obtain ⟨es, hes⟩ := h.past_precedes hi (.step .refl hc)
    refine .told rfl ?_
    rw [hes, endedIn_append]
    exact List.mem_append_right _ ended
  | torn gone =>
    rw [h.tells_of_dead hn gone]
    exact .torn fun hl => gone (hback hl)
  | waits expects =>
    obtain ⟨todo, w⟩ := c
    cases todo with
    | nil => cases hc
    | cons x rest =>
      by_cases hx : ∃ z signal, x = .perform i (.reaction (.settle z signal))
      · obtain ⟨z, signal, rfl⟩ := hx
        rw [Config.settlements_settle]
        show Config.Fares i t b n (tree.settle z signal) c' _
        rcases h.expects_settled expects hc with ⟨-, hwaits, htells⟩ |
          ⟨result, hsettled, htells, -, hended⟩
        · rw [htells]
          by_cases hl : (c'.world.core i).Live t
          · exact .waits (hwaits hl)
          · exact .torn hl
        · rw [htells]
          exact .told hsettled hended
      · have hx : ∀ z signal, x ≠ .perform i (.reaction (.settle z signal)) :=
          fun z signal hxs => hx ⟨z, signal, hxs⟩
        have hnone : Config.settlements i ⟨x :: rest, w⟩ = [] := Config.settlements_eq_nil hx
        rw [Config.tells_eq_nil hnone, hnone]
        by_cases hl : (c'.world.core i).Live t
        · exact .waits (h.expects_aside hi hc expects hx (hback hl) hl)
        · exact .torn hl

/-- Along a run the tree goes through the settlements, and the task is told what comes of it. -/
theorem fares {p : Option EffectId} {e : Effect} (h : s.Visits c) (hi : c.world.Has i)
    (hn : .triggered t n p e ∈ c.world.past i) (ht : t < (c.world.engine i).nextTask)
    (hf : c.Fares i t b n tree told) {more : List Signal} (hrun : c.Heeds i n log more c') :
    c'.Fares i t b n (tree.settleAll log) (told ++ more) := by
  induction hrun with
  | start => rwa [List.append_nil]
  | @call log more w hrun o budget ih =>
    generalize told ++ more = signals at ih ⊢
    cases ih with
    | waits expects =>
      refine .waits ⟨expects.root, expects.shown, ?_⟩
      cases expects.parks with
      | begun top | leaves top => cases top
      | rests hq => exact .rests hq
    | told settled ended => exact .told settled ended
    | torn gone => exact .torn gone
  | @step log more c₁ c₂ hrun hc ih =>
    have hv := h.precedes hrun.precedes
    have hi₁ := (h.has_precedes hrun.precedes).2 hi
    obtain ⟨es, hes⟩ := h.past_precedes hi hrun.precedes
    have hback (hl : (c₂.world.core i).Live t) : (c₁.world.core i).Live t := by
      have ha := hv.alive_of_step hi₁ hc ((hv.step hc).alive_of_posture hl.choose_spec.1)
      exact hv.live_earlier hi₁ hc (Nat.lt_of_lt_of_le ht (h.number_precedes hi hrun.precedes ha)) hl
    have hstep := hv.fares_step hi₁ hc (hes ▸ List.mem_append_right _ hn) hback ih
    rwa [EffectTree.settleAll_append, ← List.append_assoc]

end Scenario.Visits

/-! ## From the start on -/

theorem EffectTree.root_ofRace {keys : Option (List String)} {width : Nat} {ts : List EffectTree}
    (h : (ofRace n keys width ts).signal? = none) : (ofRace n keys width ts).root? = some n := by
  unfold ofRace at h ⊢
  split
  · rename_i hw
    simp [hw, signal?] at h
  · rfl

theorem EffectTree.root_ofAll {ts : List EffectTree} (h : (ofAll n ts).signal? = none) :
    (ofAll n ts).root? = some n := by
  unfold ofAll at h ⊢
  split
  · rename_i hf
    simp [hf, signal?] at h
  · split
    · rename_i hf hv
      simp [hf, hv, signal?] at h
    · rfl

/-- An effect that is pending once it was started goes by the number that it was triggered under. -/
theorem Effect.root_launch {answers : EffectId → Option Signal} {p : Option EffectId} {e : Effect}
    (h : (e.launch answers p n).tree.signal? = none) : (e.launch answers p n).tree.root? = some n := by
  cases hf : e.fan? with
  | none =>
    by_cases hne : e = .all []
    · subst hne
      rw [Effect.launch_all_nil] at h
      cases h
    · rw [Effect.launch_leaf hf hne, Effect.launchLeaf] at h ⊢
      cases ha : answers n with
      | none => rfl
      | some signal => simp [ha, EffectTree.signal?] at h
  | some r =>
    obtain ⟨kind, e₀, es⟩ := r
    rw [Effect.launch_fan hf] at h ⊢
    cases kind with
    | race => exact EffectTree.root_ofRace h
    | _ => exact EffectTree.root_ofAll h

/-- What a task that has started an effect as a tree comes to. -/
structure Config.Answers (i : MiddlewareId) (t : TaskId) (b : Body) (n : EffectId) (tree : EffectTree)
    (c : Config) : Prop where
  /-- If the tree has settled already, the body gets its signal, once scheduled reactions have run. -/
  atOnce : ∀ signal, tree = .settled signal → ∃ rest,
    c.step = some ⟨b.opens ⟨i, t⟩ (some signal) :: rest, c.world⟩ ∨
      c.step = some ⟨.leave ⟨i, t⟩ b (.yielded signal) :: rest, c.world⟩
  /-- Members that were not started by then are never started. -/
  sealed : ∀ {c' u x p e}, c.Precedes c' → .triggered u x (some p) e ∈ c'.world.past i →
    p ∈ triggeredIn (c.world.past i) → .triggered u x (some p) e ∈ c.world.past i
  /-- On every run the tree goes through the settlements, and the task is told once what it settles
  with. -/
  fares : ∀ {log told c'}, c.Heeds i n log told c' →
    c'.Fares i t b n (tree.settleAll log) (tree.signal?.toList ++ told)
  /-- The body goes on where a settlement settles the tree. -/
  resumes : ∀ {log told w rest z signal result},
    c.Heeds i n log told ⟨.perform i (.reaction (.settle z signal)) :: rest, w⟩ → (w.core i).Live t →
    (tree.settleAll log).signal? = none → (tree.settleAll log).settle z signal = .settled result →
    ∃ w', Config.step ⟨.perform i (.reaction (.settle z signal)) :: rest, w⟩ =
      some ⟨b.opens ⟨i, t⟩ (some result) :: rest, w'⟩

namespace Scenario.Visits

variable {e : Effect} {start : Start} {rest' : List Instr}

/-- A body gets a signal at once, or stands aside. -/
theorem step_begunImmediate (hl : (w.core i).Live t) (body : Body) (signal : Signal) :
    Config.step ⟨.begun ⟨i, t⟩ body [] (.immediate signal) :: rest, w⟩ =
        some ⟨body.opens ⟨i, t⟩ (some signal) :: rest, w⟩ ∨
      Config.step ⟨.begun ⟨i, t⟩ body [] (.immediate signal) :: rest, w⟩ =
        some ⟨.leave ⟨i, t⟩ body (.yielded signal) :: rest, w⟩ := by
  simp only [Config.step, Instr.exec, World.execBegun, World.resumeBody, World.not_halted hl,
    Option.map_some]
  cases signal with
  | ended => exact Or.inl rfl
  | value | fault =>
    by_cases hf : (w.engine i).agenda.fresh.isEmpty = true
    · left
      simp only [hf]
      rfl
    · right
      simp only [hf]
      rfl

/-- An effect of a live task is triggered before it was started. -/
theorem triggered_of_undertakes (h : s.Visits c) (htodo : c.todo = .trigger ⟨i, t⟩ b [] e :: rest)
    (hl : (c.world.core i).Live t) (hp : c.Precedes c') (hne : c' ≠ c) :
    .triggered t (c.world.engine i).nextEffect none e ∈ c'.world.past i := by
  rcases hp.head (by simp [htodo]) with rfl | ⟨c₁, hc, hlater⟩
  · exact absurd rfl hne
  · obtain ⟨todo, w⟩ := c
    obtain rfl : todo = _ := htodo
    have hi := (h.alive_of_owner (i := i) rfl).has
    obtain ⟨es, hes⟩ := (h.step hc).past_precedes ((h.knows.has_iff hc i).2 hi) hlater
    obtain ⟨next, -, rfl, hm⟩ := Config.meets_of_step h.knows hi hc
    cases hm with
    | own _ hadv hd =>
      obtain ⟨es', rfl⟩ := hd.triggers hl
      rw [hes]
      refine List.mem_append_right _ ?_
      show _ ∈ next.world.past i
      rw [hadv.past]
      exact List.mem_append_left _ (List.mem_reverse.2 List.mem_cons_self)
    | foreign ho => exact absurd rfl ho
    | drops hxd | dies hxd => cases hxd

/-- An effect that was started by a live task, and is not pending, has come to its end. -/
theorem ended_of_immediate (h : s.Visits ⟨.begun ⟨i, t⟩ b [] (.immediate signal) :: rest, w⟩)
    (hl : (w.core i).Live t) (hn : .triggered t n none e ∈ w.past i) : n ∈ endedIn (w.past i) := by
  have ha := h.alive_of_owner (i := i) rfl
  have hk := h.kept ha.has
  have hA := hk.accounts (Config.alive_iff.2 ha)
  have hg := h.grounds (i := i) rfl ha.has
  obtain ⟨hcur, hF⟩ := hg.stack.of_turn rfl
  by_contra hend
  have habsent : (w.core i).waits.get? n = none := by
    by_contra hsome
    obtain ⟨wait, hw⟩ := Option.ne_none_iff_exists'.1 hsome
    obtain ⟨⟨e', he'⟩, -⟩ := hA.entries hw
    obtain ⟨htask, hlink, -⟩ := hk.regular.triggered_once he' hn
    have hlink : wait.link = .task := by
      cases hwl : wait.link with
      | task => rfl
      | race | all => rw [hwl] at hlink; cases hlink
    have hloose : n ∉ looseOf (.begun ⟨i, t⟩ b [] (.immediate signal) :: framesOf i rest) := by
      rw [hF]
      exact List.not_mem_nil
    obtain ⟨p, hp, hb, -⟩ := hg.tabled.rooted hw hlink hloose
    rw [((hg.orderly.driver hcur).1.2 p (htask ▸ hp)).1] at hb
    cases hb
  have hframes : attemptsOf (framesOf i (.begun ⟨i, t⟩ b [] (.immediate signal) :: rest)) = [] := by
    simp [framesOf_cons, hF, Instr.owner?, attemptsOf, Instr.attempt?]
  have hmisses : Config.Misses ⟨.begun ⟨i, t⟩ b [] (.immediate signal) :: rest, w⟩ i n :=
    ⟨mem_triggeredIn.2 ⟨_, _, _, hn⟩, hend, habsent, by rw [hframes]; exact List.not_mem_nil⟩
  -- only an effect that cancels its own task is given up
  obtain ⟨u, done, body, nests, todo, hs, hd, hh, hp⟩ := h.cancelsItself_of_misses ha hmisses
  obtain ⟨issue, target, hv, hissue, -⟩ := id hs
  have hdone := hv.precedes hissue
  have hi := (hdone.has_precedes hp).1 ha.has
  obtain ⟨q, target', hq⟩ := hs.triggered hi (hd.trans (List.nil_append _).symm)
  obtain ⟨es, hes⟩ := hdone.past_precedes hi hp
  obtain ⟨rfl, -⟩ := hk.regular.triggered_once (hes ▸ List.mem_append_right _ hq) hn
  obtain ⟨p, hposture⟩ := hdone.posture_of_turn hi (y := .cancelDone ⟨i, u⟩ body nests n)
    (by simp [hd, Instr.owner?]) rfl
  exact World.isHalted_iff.1 hh
    (hdone.live_precedes hi hp ((hdone.sound hi).orderly.tasks hposture).number hl)

/-- A task that waits goes on where a settlement settles its tree. -/
theorem resumes_of_fares {w : World} {signals : List Signal}
    (h : s.Visits ⟨.perform i (.reaction (.settle z signal)) :: rest, w⟩)
    (hf : Config.Fares i t b n tree ⟨.perform i (.reaction (.settle z signal)) :: rest, w⟩ signals)
    (hl : (w.core i).Live t) (hpending : tree.signal? = none)
    (hsettled : tree.settle z signal = .settled result) :
    ∃ w', Config.step ⟨.perform i (.reaction (.settle z signal)) :: rest, w⟩ =
      some ⟨b.opens ⟨i, t⟩ (some result) :: rest, w'⟩ := by
  cases hf with
  | torn gone => exact absurd hl gone
  | told settled =>
    rw [settled] at hpending
    cases hpending
  | waits expects =>
    have hc : Config.step ⟨.perform i (.reaction (.settle z signal)) :: rest, w⟩ = some _ := rfl
    rcases h.expects_settled expects hc with ⟨hnone, -⟩ | ⟨result', hres, -, htodo, -⟩
    · rw [hsettled] at hnone
      cases hnone
    · cases hsettled.symm.trans hres
      exact ⟨_, hc.trans (congrArg (fun todo => some (Config.mk todo _)) htodo)⟩

/-- Where a body is told what it has started, a tree that is pending waits for its leaves, and one that
has settled has its signal. -/
theorem begun_fares {w : World} (h : s.Visits ⟨.begun ⟨i, t⟩ b [] tree.start :: rest, w⟩)
    (hl : (w.core i).Live t) (hn : .triggered t n none e ∈ w.past i)
    (hroot : tree.signal? = none → tree.root? = some n)
    (hshown : tree.signal? = none → (w.engine i).waits.Shows t .task tree) :
    Config.Fares i t b n tree ⟨.begun ⟨i, t⟩ b [] tree.start :: rest, w⟩ tree.signal?.toList := by
  cases hs : tree.signal? with
  | none =>
    obtain ⟨r, hr, hpending⟩ := EffectTree.start_of_pending hs
    cases hr.symm.trans (hroot hs)
    exact .waits ⟨hr, hshown hs, .begun (by rw [hpending])⟩
  | some signal =>
    obtain rfl := EffectTree.signal?_eq_some.1 hs
    exact .told rfl (h.ended_of_immediate hl hn)

/-- Where a body is told what it has started, no combinator is being started. -/
theorem begun_nests (h : s.Visits ⟨.begun ⟨i, t⟩ b [] start :: rest, w⟩) :
    ∀ f ∈ framesOf i (.begun ⟨i, t⟩ b [] start :: rest), f.nests = [] := by
  rw [h.framesOf_begun]
  intro f hf
  rcases List.mem_cons.1 hf with rfl | hf
  · rfl
  · rw [List.mem_singleton.1 hf]
    rfl

/--
The machine carries out races and `all`s as the recursion on trees of effects says: it starts what the
recursion starts, and on every run every settlement that the driver performs changes the tree that the
task waits for as the recursion does. The task is told once, when the tree settles, what it settles
with.
-/
theorem combinators_agree (h : s.Visits c) (htodo : c.todo = .trigger ⟨i, t⟩ b [] e :: rest)
    (hu : c.Undertakes ⟨i, t⟩ b c') (hbegun : c'.todo = .begun ⟨i, t⟩ b [] start :: rest')
    (hl : (c'.world.core i).Live t) :
    c.Launched i t c'
        (e.launch (answerIn (c'.world.past i)) none (c.world.engine i).nextEffect) start ∧
      c'.Answers i t b (c.world.engine i).nextEffect
        (e.launch (answerIn (c'.world.past i)) none (c.world.engine i).nextEffect).tree := by
  have hlaunched := h.launches htodo hu hbegun hl
  have hroot : (e.launch (answerIn (c'.world.past i)) none
      (c.world.engine i).nextEffect).tree.signal? = none → _ := Effect.root_launch
  generalize e.launch (answerIn (c'.world.past i)) none (c.world.engine i).nextEffect = l at *
  refine ⟨hlaunched, ?_⟩
  have hv := h.precedes hu.precedes
  have hi : c.world.Has i := by
    obtain ⟨todo, w⟩ := c
    obtain rfl : todo = _ := htodo
    exact (h.alive_of_owner rfl).has
  have hframe : Instr.trigger ⟨i, t⟩ b [] e ∈ framesOf i c.todo := by simp [htodo, Instr.owner?]
  obtain ⟨p, hp⟩ := h.posture_of_turn hi hframe rfl
  have ht := ((h.sound hi).orderly.tasks hp).number
  have hn := h.triggered_of_undertakes htodo (h.live_precedes hi hu.precedes ht hl) hu.precedes (by
    rintro rfl
    cases htodo.symm.trans hbegun)
  obtain ⟨todo, w⟩ := c'
  obtain rfl : todo = _ := hbegun
  obtain rfl : start = l.tree.start := hlaunched.start
  have ha := hv.alive_of_owner (i := i) rfl
  have ht' := Nat.lt_of_lt_of_le ht (h.number_precedes hi hu.precedes ha)
  have hruns {log : List (EffectId × Signal)} {told : List Signal} {d : Config}
      (hrun : Config.Heeds i (c.world.engine i).nextEffect _ log told d) :=
    hv.fares ha.has hn ht' (hv.begun_fares hl hn hroot hlaunched.shown) hrun
  refine ⟨fun signal hs => ⟨rest', ?_⟩, fun hp hx => hv.sealed ha.has hv.begun_nests hp hx, hruns,
    fun hrun hlive hpending hsettled => ?_⟩
  · rw [hs]
    exact step_begunImmediate hl b signal
  · exact (hv.precedes hrun.precedes).resumes_of_fares (hruns hrun) hlive hpending hsettled

end Scenario.Visits

theorem EffectTree.signal?_of_start (h : tree.start = .pending n) : tree.signal? = none := by
  cases tree with
  | settled => cases h
  | _ => rfl

/-- A body is about to be told what it has started. -/
def Config.tellsBody? (turn : Turn) (c : Config) : Bool :=
  match c.todo with
  | .begun turn' _ [] _ :: _ => turn' == turn
  | _ => false

theorem Config.Undertakes.run {turn : Turn} {k : Nat} (h : c.Undertakes turn b c')
    (hgoing : ∀ m < k, (c'.run m).tellsBody? turn = false) : c.Undertakes turn b (c'.run k) := by
  induction k generalizing c' with
  | zero => exact h
  | succ k ih =>
    have hrun (m : Nat) : c'.run (m + 1) = (c'.step.elim c' (Config.run m)) := by
      rw [Config.run]
      cases c'.step <;> rfl
    rw [hrun]
    cases hc : c'.step with
    | none => exact h
    | some c₁ =>
      refine ih (h.step (fun start rest htodo => ?_) hc) fun m hm => ?_
      · have hno : c'.tellsBody? turn = false := hgoing 0 (Nat.succ_pos k)
        rw [Config.tellsBody?, htodo] at hno
        simp at hno
      · have hno := hgoing (m + 1) (Nat.succ_lt_succ hm)
        rwa [hrun, hc] at hno

end

/-- A task races a signal against a call and another signal, of which it needs both. -/
def Scenario.racesBoth : Scenario where
  middlewares := [{}]
  scripts := [("racer", [.perform (.race [("stop", .take none (.type "stop")), ("both",
    .all [.call { answer := .value (.json (.str "left")) }, .take none (.type "right")])])
    none none])]

/-- Task 1 is about to start a race with these keys. -/
def Config.startsRace? (keys : List String) (c : Config) : Bool :=
  match c.todo with
  | .trigger ⟨0, 1⟩ _ [] (.race members) :: _ => decide (members.map Prod.fst = keys)
  | _ => false

/-- Task 1 is about to be told that an effect is pending. -/
def Config.tellsPending? (n : EffectId) (c : Config) : Bool :=
  match c.todo with
  | .begun ⟨0, 1⟩ _ [] (.pending x) :: _ => x == n
  | _ => false

theorem Scenario.combinators_agree_racesBoth : ∃ c c' b members tree,
    racesBoth.Visits c ∧ c.Undertakes ⟨0, 1⟩ b c' ∧ members.map Prod.fst = ["stop", "both"] ∧
      tree = ((Effect.race members).launch (answerIn (c'.world.past 0)) none 1).tree ∧
      tree.start = .pending 1 ∧ (c'.world.engine 0).waits.Shows 1 .task tree ∧
      c'.Answers 0 1 b 1 tree := by
  have h : ((racesBoth.during? (.run 0 { source := .named "racer" } none) 6).any fun c =>
      c.startsRace? ["stop", "both"] && decide ((c.world.engine 0).nextEffect = 1) &&
        ((List.range 11).all fun m => !(c.run m).tellsBody? ⟨0, 1⟩) &&
        (c.run 11).tellsPending? 1 &&
        (((c.run 11).world.core 0).posture 1).any fun p => !p.status.isTerminal) = true := by
    decide +kernel
  obtain ⟨c, hc, h⟩ := (Option.any_eq_true ..).1 h
  simp only [Bool.and_eq_true, decide_eq_true_eq, List.all_eq_true, List.mem_range] at h
  obtain ⟨⟨⟨⟨hstarts, hnext⟩, hgoing⟩, htells⟩, hlive⟩ := h
  have hv : racesBoth.Visits c := Visits.of_during? hc
  obtain ⟨p, hp, hterm⟩ := (Option.any_eq_true ..).1 hlive
  have hl : ((c.run 11).world.core 0).Live 1 := ⟨p, hp, by simpa using hterm⟩
  obtain ⟨b, members, rest, htodo, hkeys⟩ : ∃ b members rest,
      c.todo = .trigger ⟨0, 1⟩ b [] (.race members) :: rest ∧
        members.map Prod.fst = ["stop", "both"] := by
    unfold Config.startsRace? at hstarts
    split at hstarts
    · rename_i htodo
      exact ⟨_, _, _, htodo, of_decide_eq_true hstarts⟩
    · cases hstarts
  obtain ⟨b', rest', hbegun⟩ : ∃ b' rest',
      (c.run 11).todo = .begun ⟨0, 1⟩ b' [] (.pending 1) :: rest' := by
    unfold Config.tellsPending? at htells
    split at htells
    · rename_i x _ hbegun
      obtain rfl := eq_of_beq htells
      exact ⟨_, _, hbegun⟩
    · cases htells
  have hu : c.Undertakes ⟨0, 1⟩ b (c.run 11) :=
    Config.Undertakes.start.run fun m hm => by simpa using hgoing m hm
  obtain rfl := (hv.launching_begun htodo hu hbegun hl).body_eq
  obtain ⟨hlaunched, hanswers⟩ := hv.combinators_agree htodo hu hbegun hl
  rw [hnext] at hlaunched hanswers
  have hpending := EffectTree.signal?_of_start hlaunched.start.symm
  exact ⟨c, c.run 11, _, members, _, hv, hu, hkeys, rfl, hlaunched.start.symm,
    hlaunched.shown hpending, hanswers⟩

end SagaMachine
