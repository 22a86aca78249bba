import SagaMachine.Proofs.Sprouts
import SagaMachine.Proofs.Watchers
import SagaMachine.Proofs.Winners

/-!
# Malformed races

A race is malformed if it is empty, or if it has a key twice (`Effect.Malformed`). It fails before
anything of it was started, and leaves no trace but the events of its failure (`World.rejected`);
whatever combinators are around it fail with it, one after the other
(`Scenario.Visits.fault_goes_up`). A keyed race that is not malformed names its winner by the key that
it was given with.

Main statement: `Scenario.Visits.races_vetted`.
-/

namespace SagaMachine

/-! ## Keys -/

namespace Effect

/-- Keys are searched for the first one that was seen before. -/
theorem duplicateKey?_go_eq_some {seen keys : List String} {key : String} :
    duplicateKey?.go seen keys = some key ↔ ∃ pre post, keys = pre ++ key :: post ∧
      duplicateKey?.go seen pre = none ∧ (key ∈ seen ∨ key ∈ pre) := by
  induction keys generalizing seen with
  | nil => simp [duplicateKey?.go]
  | cons k keys ih =>
    by_cases hk : k ∈ seen
    · rw [duplicateKey?.go, if_pos (List.contains_iff_mem.2 hk)]
      constructor
      · intro h
        cases h
        exact ⟨[], keys, rfl, rfl, Or.inl hk⟩
      · rintro ⟨pre, post, hkeys, hnone, -⟩
        cases pre with
        | nil => rw [(List.cons.inj hkeys).1]
        | cons k' pre =>
          obtain ⟨rfl, -⟩ := List.cons.inj hkeys
          exact absurd hk ((nodup_of_go hnone).2 k List.mem_cons_self)
    · have hgo (ks : List String) : duplicateKey?.go seen (k :: ks) = duplicateKey?.go (k :: seen) ks := by
        rw [duplicateKey?.go, if_neg (mt List.contains_iff_mem.1 hk)]
      rw [hgo, ih]
      constructor
      · rintro ⟨pre, post, rfl, hnone, hkey⟩
        refine ⟨k :: pre, post, rfl, (hgo pre).trans hnone, ?_⟩
        rwa [List.mem_cons, or_left_comm, ← or_assoc, ← List.mem_cons]
      · rintro ⟨pre, post, hkeys, hnone, hkey⟩
        cases pre with
        | nil =>
          obtain ⟨rfl, -⟩ := List.cons.inj hkeys
          exact absurd (hkey.resolve_right List.not_mem_nil) hk
        | cons k' pre =>
          obtain ⟨rfl, rfl⟩ := List.cons.inj hkeys
          refine ⟨pre, post, rfl, (hgo pre).symm.trans hnone, ?_⟩
          rwa [List.mem_cons, or_assoc, or_left_comm, ← List.mem_cons]

/-- A race has a key twice, and this is the first one to come again. -/
def Repeats (members : List (String × Effect)) (key : String) : Prop :=
  ∃ pre m post, members = pre ++ (key, m) :: post ∧ (pre.map Prod.fst).Nodup ∧ key ∈ pre.map Prod.fst

theorem duplicateKey?_eq_none {members : List (String × Effect)} :
    duplicateKey? members = none ↔ (members.map Prod.fst).Nodup :=
  ⟨fun h => (nodup_of_go h).1, duplicateKey?_of_nodup⟩

theorem duplicateKey?_eq_some {members : List (String × Effect)} {key : String} :
    duplicateKey? members = some key ↔ Repeats members key := by
  rw [duplicateKey?, duplicateKey?_go_eq_some]
  constructor
  · rintro ⟨pre, post, hkeys, hnone, hkey⟩
    obtain ⟨pre', rest, rfl, rfl, hrest⟩ := List.map_eq_append_iff.1 hkeys
    obtain ⟨⟨key', m⟩, post', rfl, rfl, rfl⟩ := List.map_eq_cons_iff.1 hrest
    exact ⟨pre', m, post', rfl, duplicateKey?_eq_none.1 hnone, hkey.resolve_left List.not_mem_nil⟩
  · rintro ⟨pre, m, post, rfl, hnodup, hkey⟩
    exact ⟨_, _, List.map_append, duplicateKey?_eq_none.2 hnodup, Or.inr hkey⟩

/-- What is wrong with a race. -/
inductive Flaw : Effect → String → Prop
  | keyed : Flaw (.race []) "race needs at least one member"
  | positional : Flaw (.racePositional []) "race needs at least one member"
  | repeats {members : List (String × Effect)} {key : String} (h : Repeats members key) :
      Flaw (.race members) ("race has duplicate key `" ++ key ++ "`")

/-- A race without members, or with a key that two of them have. -/
def Malformed : Effect → Prop
  | race members => members = [] ∨ ¬ (members.map Prod.fst).Nodup
  | racePositional members => members = []
  | _ => False

section

variable {e : Effect} {reason : String} {members : List (String × Effect)}

theorem Flaw.fan?_eq (h : e.Flaw reason) : e.fan? = none := by
  cases h with
  | keyed | positional => rfl
  | repeats h => rw [fan?, duplicateKey?_eq_some.2 h]

theorem Flaw.members_eq (h : e.Flaw reason) : e.members = [] := by rw [members, h.fan?_eq]

/-- What a keyed race without a flaw starts with. -/
theorem fan?_keyed (he : ∀ reason, ¬ (race members).Flaw reason) : ∃ m ms, members = m :: ms ∧
    (race members).fan? = some (.race (some (members.map Prod.fst)) (members.map fun _ => none), m.2,
      ms.map Prod.snd) := by
  have hdup : duplicateKey? members = none := by
    refine Option.eq_none_iff_forall_ne_some.2 fun key hkey => ?_
    exact he _ (.repeats (duplicateKey?_eq_some.1 hkey))
  cases members with
  | nil => exact absurd .keyed (he _)
  | cons m ms => exact ⟨m, ms, rfl, by simp [fan?, hdup, Function.comp_def]⟩

/-- A race that has no flaw has a first member. -/
theorem exists_fan {width : Nat} (hw : e.raceWidth? = some width) (he : ∀ reason, ¬ e.Flaw reason) :
    ∃ kind e₀ es, e.fan? = some (kind, e₀, es) := by
  cases e with
  | race members =>
    obtain ⟨m, ms, -, hf⟩ := fan?_keyed he
    exact ⟨_, _, _, hf⟩
  | racePositional members =>
    cases members with
    | nil => exact absurd .positional (he _)
    | cons m ms => exact ⟨_, _, _, rfl⟩
  | _ => cases hw

/-- A race has a flaw if it is malformed. -/
theorem exists_flaw : (∃ reason, e.Flaw reason) ↔ e.Malformed := by
  constructor
  · rintro ⟨reason, h⟩
    cases h with
    | keyed => exact Or.inl rfl
    | positional => rfl
    | repeats h =>
      refine Or.inr fun hnodup => ?_
      cases (duplicateKey?_eq_some.2 h).symm.trans (duplicateKey?_eq_none.2 hnodup)
  · intro h
    cases e with
    | race members =>
      rcases h with rfl | h
      · exact ⟨_, .keyed⟩
      · obtain ⟨key, hkey⟩ := Option.ne_none_iff_exists'.1 (mt duplicateKey?_eq_none.1 h)
        exact ⟨_, .repeats (duplicateKey?_eq_some.1 hkey)⟩
    | racePositional members =>
      obtain rfl : members = [] := h
      exact ⟨_, .positional⟩
    | _ => exact h.elim

/-- The results of a keyed race without a flaw go by its keys. -/
theorem race?_keyed (he : ∀ reason, ¬ (race members).Flaw reason) :
    (race members).race? = some (some (members.map Prod.fst), members.length) := by
  obtain ⟨m, ms, -, hf⟩ := fan?_keyed he
  rw [race?, hf]
  simp [WaitKind.race?]

theorem members_keyed (he : ∀ reason, ¬ (race members).Flaw reason) :
    (race members).members = members.map Prod.snd := by
  obtain ⟨m, ms, rfl, hf⟩ := fan?_keyed he
  rw [Effect.members, hf]
  rfl

end

end Effect

/-! ## The failure -/

/-- The world after a malformed race: its number is taken, and two events are entered. -/
def World.rejected (w : World) (i : MiddlewareId) (t : TaskId) (nests : List Nest) (e : Effect)
    (reason : String) : World :=
  { w with
    middlewares := w.middlewares.modify i fun m =>
      { m with engine := { m.engine with nextEffect := (w.engine i).nextEffect + 1 } }
    journal :=
      .event i (.settled (w.engine i).nextEffect (.fault (.invalidEffect reason))) ::
      .event i (.triggered t (w.engine i).nextEffect (Nest.link nests).parent? e) :: w.journal }

section

variable {s : Scenario} {w : World} {i : MiddlewareId} {t : TaskId} {b : Body} {nests : List Nest}
  {e e₀ : Effect} {es : List Effect} {rest : List Instr} {reason : String} {kind : WaitKind}
  {f : Fault}

theorem World.past_rejected : (w.rejected i t nests e reason).past i =
    .settled (w.engine i).nextEffect (.fault (.invalidEffect reason)) ::
      .triggered t (w.engine i).nextEffect (Nest.link nests).parent? e :: w.past i := by
  simp [World.past, World.rejected]

theorem World.step_flawed (hl : (w.core i).Live t) (he : e.Flaw reason) :
    Config.step ⟨.trigger ⟨i, t⟩ b nests e :: rest, w⟩ =
      some ⟨.begun ⟨i, t⟩ b nests (.immediate (.fault (.invalidEffect reason))) :: rest,
        w.rejected i t nests e reason⟩ := by
  cases he with
  | keyed | positional =>
    simp only [Config.step, Instr.exec, World.execTrigger, World.not_halted hl, Option.map_some]
    rfl
  | repeats h =>
    simp only [Config.step, Instr.exec, World.execTrigger, World.not_halted hl, Option.map_some,
      World.startKeyedRace, Effect.duplicateKey?_eq_some.2 h]
    rfl

/-- A combinator that is accepted goes on with its first member. -/
theorem World.step_fan (hl : (w.core i).Live t) (he : e.fan? = some (kind, e₀, es)) :
    ∃ w', Config.step ⟨.trigger ⟨i, t⟩ b nests e :: rest, w⟩ =
      some ⟨.trigger ⟨i, t⟩ b (kind.nest (w.engine i).nextEffect es :: nests) e₀ :: rest, w'⟩ := by
  simp only [Config.step, Instr.exec, World.execTrigger, World.not_halted hl, Option.map_some]
  unfold Effect.fan? at he
  split at he
  · split at he
    · rename_i hdup hm
      cases he
      simp only [World.startKeyedRace, hdup, hm]
      exact ⟨_, rfl⟩
    · cases he
  · cases he
    exact ⟨_, rfl⟩
  · cases he
    exact ⟨_, rfl⟩
  · cases he

/-! ### Around a failure -/

/-- No race turns a fault into something else. -/
theorem Waits.closeRace_fault (waits : Waits) (kind : WaitKind) (slot : Nat) (f : Fault) :
    (waits.closeRace kind slot (.fault f)).1 = .fault f := by
  cases kind <;> rfl

/-- An instruction that hands a fault on to a combinator. -/
theorem World.step_fault {m : Nest} (hm : ∃ wait, (w.engine i).waits.get? m.id = some wait) :
    ∃ w', Config.step ⟨.begun ⟨i, t⟩ b (m :: nests) (.immediate (.fault f)) :: rest, w⟩ =
      some ⟨.begun ⟨i, t⟩ b nests (.immediate (.fault f)) :: rest, w'⟩ := by
  obtain ⟨wait, hw⟩ := hm
  cases m with
  | race id slot left =>
    have hw : (w.engine i).waits.get? id = some wait := hw
    refine ⟨(w.closeRace i id wait slot (.fault f)).2.record i (.settled id (.fault f)), ?_⟩
    simp only [Config.step, Instr.exec, World.execBegun, World.begunInRace, hw, Option.map_some]
    rw [show (w.closeRace i id wait slot (.fault f)).1 = .fault f from Waits.closeRace_fault _ _ _ _]
    rfl
  | all id slot left =>
    have hw : (w.engine i).waits.get? id = some wait := hw
    refine ⟨(w.dropAll i id wait).record i (.settled id (.fault f)), ?_⟩
    simp only [Config.step, Instr.exec, World.execBegun, World.begunInAll, hw, Option.map_some]
    rfl

theorem Does.of_fault {past evs : List Event} {k k' : Core} {G : List Instr} {D : List TaskId}
    {m : Nest} (h : Does i past (.begun ⟨i, t⟩ b (m :: nests) (.immediate (.fault f))) k k' G D evs)
    (hm : ∃ wait, k.waits.get? m.id = some wait) :
    .settled m.id (.fault f) ∈ evs ∧ triggeredIn evs = [] := by
  have hdecided (ps : List Passage) (z : EffectId) (signal : Signal) :
      triggeredIn (ps.map Passage.event ++ [.settled z signal]) = [] := by
    rw [triggeredIn_append, triggeredIn_passages]
    rfl
  obtain ⟨wait, hw⟩ := hm
  cases h with
  | raceLost h | allLost _ h => cases h.symm.trans hw
  | raceDecided =>
    rw [Waits.closeRace_fault]
    exact ⟨List.mem_append_right _ List.mem_cons_self, hdecided _ _ _⟩
  | allFailed => exact ⟨List.mem_append_right _ List.mem_cons_self, hdecided _ _ _⟩
  | allNext hk | allFull hk | allComplete hk =>
    rcases hk with ⟨member, hs, -⟩ | ⟨v, hs, -⟩ <;> cases hs

namespace Scenario.Visits

/-- A combinator fails with its member. -/
theorem fault_step {m : Nest}
    (h : s.Visits ⟨.begun ⟨i, t⟩ b (m :: nests) (.immediate (.fault f)) :: rest, w⟩) :
    ∃ w', Config.step ⟨.begun ⟨i, t⟩ b (m :: nests) (.immediate (.fault f)) :: rest, w⟩ =
        some ⟨.begun ⟨i, t⟩ b nests (.immediate (.fault f)) :: rest, w'⟩ ∧
      .settled m.id (.fault f) ∈ w'.past i ∧ triggeredIn (w'.past i) = triggeredIn (w.past i) := by
  have hi := (h.alive_of_owner (i := i) rfl).has
  have hg := h.grounds (i := i) rfl hi
  have hopen : Open (w.core i).waits t (m :: nests) := hg.tabled.frames _ List.mem_cons_self
  have hm : ∃ wait, (w.engine i).waits.get? m.id = some wait := by
    obtain ⟨wait, hw, -⟩ := hopen.exists_get? (n := m) List.mem_cons_self
    exact ⟨wait, hw⟩
  obtain ⟨w', hc⟩ : ∃ w',
      Config.step ⟨.begun ⟨i, t⟩ b (m :: nests) (.immediate (.fault f)) :: rest, w⟩ =
        some ⟨.begun ⟨i, t⟩ b nests (.immediate (.fault f)) :: rest, w'⟩ := World.step_fault hm
  refine ⟨w', hc, ?_⟩
  obtain ⟨next, -, hnext, hmeets⟩ := Config.meets_of_step h.knows hi hc
  have hw' : w' = next.world := congrArg Config.world hnext
  cases hmeets with
  | own _ hadv hd =>
    obtain ⟨hsettled, hnone⟩ := hd.of_fault hm
    rw [hw', hadv.past]
    refine ⟨List.mem_append_left _ (List.mem_reverse.2 hsettled), ?_⟩
    rw [triggeredIn_append, triggeredIn, List.filterMap_reverse, ← triggeredIn, hnone]
    rfl
  | foreign ho => exact absurd rfl ho
  | drops hxd | dies hxd => cases hxd

/-- All combinators around an effect fail with it, and nothing else is started. -/
theorem fault_goes_up (h : s.Visits ⟨.begun ⟨i, t⟩ b nests (.immediate (.fault f)) :: rest, w⟩) :
    ∃ w', Config.run nests.length ⟨.begun ⟨i, t⟩ b nests (.immediate (.fault f)) :: rest, w⟩ =
        ⟨.begun ⟨i, t⟩ b [] (.immediate (.fault f)) :: rest, w'⟩ ∧
      (∀ m ∈ nests, .settled m.id (.fault f) ∈ w'.past i) ∧
      triggeredIn (w'.past i) = triggeredIn (w.past i) := by
  induction nests generalizing w with
  | nil => exact ⟨w, rfl, nofun, rfl⟩
  | cons m nests ih =>
    obtain ⟨w₁, hc, hm, ht₁⟩ := h.fault_step
    have h₁ := h.step hc
    obtain ⟨w', hrun, hnests, ht⟩ := ih h₁
    have hi₁ := (h₁.alive_of_owner (i := i) rfl).has
    obtain ⟨later, hlater⟩ := h₁.past_precedes hi₁ (.run .refl nests.length)
    rw [hrun] at hlater
    have hlater : w'.past i = later ++ w₁.past i := hlater
    refine ⟨w', ?_, fun m' hm' => ?_, ht.trans ht₁⟩
    · show Config.run (nests.length + 1) _ = _
      rw [Config.run, hc]
      exact hrun
    · rcases List.mem_cons.1 hm' with rfl | hm'
      · rw [hlater]
        exact List.mem_append_right _ hm
      · exact hnests m' hm'

end Scenario.Visits

/-! ## Races of a live task -/

/-- How a race of a live task is taken up: it is refused if it is malformed, and its first member is
next if it is not. -/
structure Config.Vets (i : MiddlewareId) (t : TaskId) (b : Body) (nests : List Nest) (e : Effect)
    (rest : List Instr) (c : Config) : Prop where
  refused : e.Malformed ↔ ∃ reason w, c.step =
    some ⟨.begun ⟨i, t⟩ b nests (.immediate (.fault (.invalidEffect reason))) :: rest, w⟩
  /-- Nothing but the number and the two events is left of it. -/
  rejected : ∀ {reason}, e.Flaw reason → c.step =
    some ⟨.begun ⟨i, t⟩ b nests (.immediate (.fault (.invalidEffect reason))) :: rest,
      c.world.rejected i t nests e reason⟩
  /-- All combinators around it fail with it, and none of them goes on with another member. -/
  fails : ∀ {reason}, e.Flaw reason → ∃ w, c.run (nests.length + 1) =
      ⟨.begun ⟨i, t⟩ b [] (.immediate (.fault (.invalidEffect reason))) :: rest, w⟩ ∧
    (∀ m ∈ nests, .settled m.id (.fault (.invalidEffect reason)) ∈ w.past i) ∧
    triggeredIn (w.past i) = (c.world.engine i).nextEffect :: triggeredIn (c.world.past i)
  accepted : ¬ e.Malformed → ∃ kind e₀ es w, e.fan? = some (kind, e₀, es) ∧ c.step =
    some ⟨.trigger ⟨i, t⟩ b (kind.nest (c.world.engine i).nextEffect es :: nests) e₀ :: rest, w⟩

/-- A keyed race was won by the only member that settled, and has its value under the key that this
member was given with. -/
def NamesWinner (past : List Event) (p : EffectId) (members : List (String × Effect)) (v : Value) :
    Prop :=
  ∃ (slot : Nat) (key : String) (m : Effect) (x : EffectId) (u : Value),
    members[slot]? = some (key, m) ∧ (membersIn past p)[slot]? = some (x, m) ∧
    .settled x (.value u) ∈ past ∧ (∀ y r, MemberOf past p y → .settled y r ∈ past → y = x) ∧
    v = .map [(key, u)]

namespace Scenario.Visits

variable {c : Config}

theorem vets {width : Nat} (h : s.Visits c) (hc : c.todo = .trigger ⟨i, t⟩ b nests e :: rest)
    (he : e.raceWidth? = some width) (hl : (c.world.core i).Live t) : c.Vets i t b nests e rest := by
  obtain ⟨todo, w⟩ := c
  obtain rfl : todo = _ := hc
  have haccepted (hok : ¬ e.Malformed) : ∃ kind e₀ es w', e.fan? = some (kind, e₀, es) ∧
      Config.step ⟨.trigger ⟨i, t⟩ b nests e :: rest, w⟩ =
        some ⟨.trigger ⟨i, t⟩ b (kind.nest (w.engine i).nextEffect es :: nests) e₀ :: rest, w'⟩ := by
    obtain ⟨kind, e₀, es, hf⟩ := Effect.exists_fan he fun reason hr =>
      hok (Effect.exists_flaw.1 ⟨_, hr⟩)
    obtain ⟨w', hw'⟩ := World.step_fan hl hf
    exact ⟨kind, e₀, es, w', hf, hw'⟩
  refine ⟨⟨fun hbad => ?_, fun ⟨reason, w', hw'⟩ => ?_⟩, fun hr => World.step_flawed hl hr,
    fun {reason} hr => ?_, haccepted⟩
  · obtain ⟨reason, hr⟩ := Effect.exists_flaw.2 hbad
    exact ⟨reason, _, World.step_flawed hl hr⟩
  · by_contra hok
    obtain ⟨kind, e₀, es, w₁, -, hw₁⟩ := haccepted hok
    cases hw'.symm.trans hw₁
  · have hstep : Config.step ⟨.trigger ⟨i, t⟩ b nests e :: rest, w⟩ = some _ :=
      World.step_flawed hl hr
    obtain ⟨w', hrun, hnests, ht⟩ := (h.step hstep).fault_goes_up
    refine ⟨w', ?_, hnests, ht.trans ?_⟩
    · rw [Config.run, hstep]
      exact hrun
    · rw [World.past_rejected]
      rfl

/-- A keyed race that settles with a value names its winner. -/
theorem names_winner {q : Option EffectId} {p : EffectId} {members : List (String × Effect)}
    {v : Value} (h : s.Visits c) (hi : c.world.Has i)
    (hp : .triggered t p q (.race members) ∈ c.world.past i)
    (hok : ¬ (Effect.race members).Malformed) (hv : .settled p (.value v) ∈ c.world.past i) : NamesWinner (c.world.past i) p members v := by
  have hflaw (reason : String) : ¬ (Effect.race members).Flaw reason := fun hr =>
    hok (Effect.exists_flaw.1 ⟨_, hr⟩)
  have hcrowned := h.crowned hi
  have hrace := Effect.race?_keyed hflaw
  obtain ⟨slot, x, r, hx, hr, hsignal⟩ := hcrowned.won hp hv hrace
  rw [List.getElem?_map, Option.map_eq_some_iff] at hx
  obtain ⟨⟨x, m⟩, hxm, rfl⟩ := hx
  -- the members that were triggered are the first ones that were given
  obtain ⟨later, hlater⟩ := h.members_prefix hi hp
  rw [Effect.members_keyed hflaw] at hlater
  have hm : ((membersIn (c.world.past i) p).map Prod.snd)[slot]? = some m := by
    rw [List.getElem?_map]
    exact congrArg (Option.map Prod.snd) hxm
  have hplace : (members.map Prod.snd)[slot]? = some m := by
    rw [← hlater, List.getElem?_append_left (List.getElem?_eq_some_iff.1 hm).1]
    exact hm
  rw [List.getElem?_map, Option.map_eq_some_iff] at hplace
  obtain ⟨⟨key, m⟩, hkey, rfl⟩ := hplace
  cases r with
  | value u =>
    have hv : v = .map [(((members.map Prod.fst)[slot]?).getD "", u)] := Signal.value.inj hsignal
    rw [List.getElem?_map, hkey] at hv
    obtain ⟨u', hx⟩ := mem_membersIn.1 (List.mem_of_getElem? hxm)
    refine ⟨slot, key, m, x, u, hkey, hxm, hr, fun y r hy hs => ?_, hv⟩
    exact hcrowned.single hp (by simp [hrace]) hy ⟨u', m, hx⟩ hs hr
  | fault | ended => cases hsignal

/--
A race fails with an invalid effect if, and only if, it is malformed. In the step that rejects it
nothing is triggered, called or changed but the number of the race and its two events, and its failure
is that of an effect that failed at once where it stands. None of its members is ever triggered. A
keyed race that is accepted and settles with a value has one entry, under the key of the member that
has won.
-/
theorem races_vetted (h : s.Visits c) (hi : c.world.Has i) :
    (∀ {t b nests e rest width}, c.todo = .trigger ⟨i, t⟩ b nests e :: rest →
      e.raceWidth? = some width → (c.world.core i).Live t → c.Vets i t b nests e rest) ∧
    (∀ {t p q e x}, .triggered t p q e ∈ c.world.past i → e.Malformed →
      ¬ MemberOf (c.world.past i) p x) ∧
    ∀ {t p q members v}, .triggered t p q (.race members) ∈ c.world.past i →
      ¬ (Effect.race members).Malformed → .settled p (.value v) ∈ c.world.past i →
      NamesWinner (c.world.past i) p members v := by
  refine ⟨h.vets, fun hp hbad hm => ?_, h.names_winner hi⟩
  obtain ⟨reason, hr⟩ := Effect.exists_flaw.2 hbad
  have hmembers := h.members_prefix hi hp
  rw [hr.members_eq, List.prefix_nil, List.map_eq_nil_iff] at hmembers
  obtain ⟨u, e', hx⟩ := hm
  exact List.not_mem_nil (hmembers ▸ mem_membersIn.2 ⟨u, hx⟩)

end Scenario.Visits

end

/-- A task whose first race is won at once, and whose second race has two keys twice. -/
def Scenario.racesTwice : Scenario where
  middlewares := [{}]
  scripts := [("racer", [
    .perform (.race [("fast", .call { answer := .value (.json (.str "won")) }),
      ("slow", .take none (.type "stop"))]) none none,
    .perform (.all [.take none (.type "left"),
      .race [("a", .take none (.type "x")), ("b", .call {}), ("b", .call {}), ("a", .call {})]])
      none none])]

/-- The keys of the race that task 1 is about to start in a combinator. -/
def Config.nestedRace? (c : Config) : Option (List String) :=
  match c.todo with
  | .trigger ⟨0, 1⟩ _ [_] (.race members) :: _ => some (members.map Prod.fst)
  | _ => none

/-- The keys of an effect that was triggered as a race. -/
def Event.race? (p : EffectId) : Event → Option (List String)
  | .triggered _ x _ (.race members) => if x = p then some (members.map Prod.fst) else none
  | _ => none

def Event.hasValue (p : EffectId) : Event → Bool
  | .settled x (.value _) => x == p
  | _ => false

theorem Event.exists_race {past : List Event} {p : EffectId} {keys : List String}
    (h : past.any (fun e => e.race? p = some keys) = true) : ∃ t q members,
      .triggered t p q (.race members) ∈ past ∧ members.map Prod.fst = keys := by
  obtain ⟨e, he, h⟩ := List.any_eq_true.1 h
  have hrace : e.race? p = some keys := of_decide_eq_true h
  unfold Event.race? at hrace
  split at hrace
  · split at hrace
    · rename_i hx
      subst hx
      exact ⟨_, _, _, he, Option.some.inj hrace⟩
    · cases hrace
  · cases hrace

theorem Event.exists_value {past : List Event} {p : EffectId}
    (h : past.any (fun e => e.hasValue p) = true) : ∃ v, .settled p (.value v) ∈ past := by
  obtain ⟨e, he, h⟩ := List.any_eq_true.1 h
  unfold Event.hasValue at h
  split at h
  · obtain rfl := eq_of_beq h
    exact ⟨_, he⟩
  · cases h

theorem Scenario.races_vetted_racesTwice : ∃ c b m members rest members' v, racesTwice.Visits c ∧
    c.todo = .trigger ⟨0, 1⟩ b [m] (.race members) :: rest ∧
    members.map Prod.fst = ["a", "b", "b", "a"] ∧ c.Vets 0 1 b [m] (.race members) rest ∧
    (Effect.race members).Flaw "race has duplicate key `b`" ∧
    (∀ x, ¬ MemberOf ((c.run 1).world.past 0) 5 x) ∧
    members'.map Prod.fst = ["fast", "slow"] ∧ NamesWinner ((c.run 1).world.past 0) 1 members' v := by
  have h : ((racesTwice.during? (.run 0 { source := .named "racer" } none) 18).any fun c =>
      decide (c.nestedRace? = some ["a", "b", "b", "a"]) &&
        (((c.world.core 0).posture 1).any fun p => !p.status.isTerminal) &&
        ((c.run 1).world.past 0).any (fun e => e.race? 5 = some ["a", "b", "b", "a"]) &&
        ((c.run 1).world.past 0).any (fun e => e.race? 1 = some ["fast", "slow"]) &&
        ((c.run 1).world.past 0).any (fun e => e.hasValue 1)) = true := by
    decide +kernel
  obtain ⟨c, hc, h⟩ := (Option.any_eq_true ..).1 h
  simp only [Bool.and_eq_true, decide_eq_true_eq] at h
  obtain ⟨⟨⟨⟨hnext, hlive⟩, hrace⟩, hwon⟩, hvalue⟩ := h
  have hv : racesTwice.Visits c := Visits.of_during? hc
  obtain ⟨p, hp, hterm⟩ := (Option.any_eq_true ..).1 hlive
  have hl : (c.world.core 0).Live 1 := ⟨p, hp, by simpa using hterm⟩
  obtain ⟨b, m, members, rest, htodo, hkeys⟩ : ∃ b m members rest,
      c.todo = .trigger ⟨0, 1⟩ b [m] (.race members) :: rest ∧
        members.map Prod.fst = ["a", "b", "b", "a"] := by
    unfold Config.nestedRace? at hnext
    split at hnext
    · rename_i htodo
      exact ⟨_, _, _, _, htodo, Option.some.inj hnext⟩
    · cases hnext
  obtain ⟨_, _, members₁, hrace, hkeys₁⟩ := Event.exists_race hrace
  obtain ⟨_, _, members', hwon, hkeys'⟩ := Event.exists_race hwon
  obtain ⟨v, hvalue⟩ := Event.exists_value hvalue
  have hi : c.world.Has 0 := by
    obtain ⟨todo, w⟩ := c
    obtain rfl : todo = _ := htodo
    exact (hv.alive_of_owner rfl).has
  obtain ⟨hraces, -, -⟩ := hv.races_vetted hi
  obtain ⟨-, hnone, hnames⟩ := (hv.run 1).races_vetted ((hv.has_precedes (.run .refl 1)).2 hi)
  refine ⟨c, b, m, members, rest, members', v, hv, htodo, hkeys, hraces htodo rfl hl, ?_,
    fun x => hnone hrace ?_, hkeys', hnames hwon ?_ hvalue⟩
  · have hb : Effect.Repeats members "b" := by
      rw [← Effect.duplicateKey?_eq_some, Effect.duplicateKey?, hkeys]
      decide
    have htext : "race has duplicate key `" ++ "b" ++ "`" = "race has duplicate key `b`" := rfl
    exact htext ▸ .repeats hb
  · refine Or.inr ?_
    rw [hkeys₁]
    decide
  · rintro (rfl | hrepeats)
    · cases hkeys'
    · rw [hkeys'] at hrepeats
      exact hrepeats (by decide)

end SagaMachine
