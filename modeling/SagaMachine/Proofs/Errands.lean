import SagaMachine.Proofs.Books
import SagaMachine.Proofs.Consistency

/-!
# Errands keep their order

A put that is triggered, and a dispatch or an end that is asked for, is an errand issued to a
middleware. Every errand is carried out exactly once, in the order in which the errands were
issued, whatever becomes of the effects and tasks behind them; and when the driver comes to rest
none is left. The journal shows it: the actions that were sent are those of the errands, in order.

Main statement: `Scenario.Logs.in_order`.
-/

namespace SagaMachine

/-! ## Issued and performed -/

/-- An errand of a put, not of a dispatch or an end that was asked for. -/
def Errand.isPut : Errand → Bool
  | .dispatch _ (some _) | .put .. => true
  | .dispatch _ none | .finish => false

/-- The action that an errand sends. -/
def Errand.action? : Errand → Option Action
  | .dispatch a _ => some a
  | _ => none

/--
The errands that an instruction issues to a middleware: the put of a task that is not over, a
dispatch or an end, whether the driver is at work or not.
-/
def Instr.issues (i : MiddlewareId) (w : World) : Instr → List Errand
  | .trigger turn _ _ (.put target) =>
    if turn.mw = i ∧ w.isHalted i turn.task = false then
      [target.errand (w.engine i).nextEffect]
    else []
  | .op _ env (.dispatch j a) =>
    if j = i then
      (w.spend.bind fun w => (w.living? i).map fun _ => .dispatch (w.evalAction env a) none).toList
    else []
  | .op _ _ (.finish j) => if j = i then ((w.living? i).map fun _ => .finish).toList else []
  | _ => []

/-- The errands of a middleware that an instruction carries out. -/
def Instr.performs (i : MiddlewareId) (w : World) : Instr → List Errand
  | .emit j a sender => if j = i then [.dispatch a sender.reply?] else []
  | .perform j (.errand (.put c v x)) => if j = i then [.put c v x] else []
  | .perform j (.errand .finish) => if j = i then [.finish] else []
  | .op _ _ (.finish j) =>
    if j = i ∧ (w.engine i).driving = false then ((w.living? i).map fun _ => .finish).toList else []
  | _ => []

/-- The errand of a middleware that an instruction is about to carry out. -/
def Instr.errand? (i : MiddlewareId) (x : Instr) : Option Errand :=
  x.underway?.bind fun e => if e.1 = i then some e.2 else none

namespace Config

variable (c : Config) (i : MiddlewareId)

/-- The errands that the next step issues. -/
def issues : List Errand := c.todo.head?.elim [] (Instr.issues i c.world)

/-- The errands that the next step carries out. -/
def performs : List Errand := c.todo.head?.elim [] (Instr.performs i c.world)

/-- The errands that are still to be carried out, the next one first. -/
def outstanding : List Errand :=
  c.todo.filterMap (Instr.errand? i) ++ (c.world.engine i).agenda.errands

end Config

/-- A run, with the errands issued to a middleware on the way and those carried out. -/
inductive Scenario.Logs (s : Scenario) (i : MiddlewareId) :
    List Errand → List Errand → Config → Prop
  | start {w : World} (h : s.setUp = .ok w) : s.Logs i [] [] ⟨[], w⟩
  | call {w : World} {issued performed : List Errand} (h : s.Logs i issued performed ⟨[], w⟩)
      (o : Op) (budget : Nat) :
      s.Logs i issued performed ⟨[.op .outside .empty o], { w with reply := none, budget }⟩
  | step {c c' : Config} {issued performed : List Errand} (h : s.Logs i issued performed c)
      (hc : c.step = some c') :
      s.Logs i (issued ++ c.issues i) (performed ++ c.performs i) c'

/-! ## The balance of a step -/

/-- What a step means for the errands of a middleware, and for its journal. -/
structure Config.Balances (i : MiddlewareId) (c c' : Config) : Prop where
  errands : c.outstanding i ++ c.issues i = c.performs i ++ c'.outstanding i
  puts : (c'.world.book i).puts = ((c.issues i).filter Errand.isPut).reverse ++ (c.world.book i).puts
  dispatched : (c'.world.book i).dispatched =
    ((c.performs i).filterMap Errand.action?).reverse ++ (c.world.book i).dispatched

section

variable {i j : MiddlewareId} {w w' : World} {x : Instr} {rest : List Instr} {next : Config}

theorem Instr.errand?_of_underway (h : x.underway? = none) : x.errand? i = none := by
  simp [errand?, h]

/-- Only frames of a middleware carry out its errands. -/
theorem Instr.owner_of_errand {e : Errand} (h : x.errand? i = some e) : x.owner? = some i := by
  cases x with
  | perform j job =>
    cases job with
    | reaction => cases h
    | errand =>
      simp only [errand?, underway?, Option.bind_some] at h
      split at h
      · rename_i hj
        exact congrArg some hj
      · cases h
  | emit j =>
    simp only [errand?, underway?, Option.bind_some] at h
    split at h
    · rename_i hj
      exact congrArg some hj
    · cases h
  | _ => cases h

theorem Instr.errand?_of_owner (h : x.owner? ≠ some i) : x.errand? i = none := by
  cases he : x.errand? i with
  | none => rfl
  | some e => exact absurd (Instr.owner_of_errand he) h

/-- Where a middleware has no frames, none of its errands is being carried out. -/
theorem filterMap_errand?_of_framesOf (h : framesOf i rest = []) :
    rest.filterMap (Instr.errand? i) = [] := by
  refine List.filterMap_eq_nil_iff.2 fun x hx => Instr.errand?_of_owner fun ho => ?_
  exact List.filter_eq_nil_iff.1 h x hx (by simpa using ho)

theorem filterMap_errand?_of_all {todo : List Instr}
    (h : (todo.all fun x => x.underway?.isNone) = true) : todo.filterMap (Instr.errand? i) = [] := by
  refine List.filterMap_eq_nil_iff.2 fun x hx => Instr.errand?_of_underway ?_
  simpa using List.all_eq_true.1 h x hx

theorem filterMap_errand?_of_spares {todo : List Instr} (h : ∀ x ∈ todo, x.Spares i) :
    todo.filterMap (Instr.errand? i) = [] :=
  List.filterMap_eq_nil_iff.2 fun x hx => Instr.errand?_of_owner (h x hx).1

/-- What an instruction comes to issues no errand, carries out none, and sends nothing. -/
structure World.Abstains (i : MiddlewareId) (w : World) (c : Config) : Prop where
  todo : c.todo.filterMap (Instr.errand? i) = []
  errands : (c.world.book i).errands = (w.book i).errands
  puts : (c.world.book i).puts = (w.book i).puts
  dispatched : (c.world.book i).dispatched = (w.book i).dispatched

theorem World.Plain.abstains (h : w.Plain next) : w.Abstains i next :=
  ⟨filterMap_errand?_of_all h.todo, by rw [h.book], by rw [h.book], by rw [h.book]⟩

theorem World.Spares.abstains (h : w.Spares i next) : w.Abstains i next :=
  ⟨filterMap_errand?_of_spares h.todo, by rw [h.untouched.book], by rw [h.untouched.book],
    by rw [h.untouched.book]⟩

theorem Config.outstanding_cons : Config.outstanding ⟨x :: rest, w⟩ i =
    (x.errand? i).toList ++ (rest.filterMap (Instr.errand? i) ++ (w.book i).errands) := by
  cases h : x.errand? i <;> simp [outstanding, h, World.book]

theorem Config.outstanding_followedBy : (next.followedBy rest).outstanding i =
    next.todo.filterMap (Instr.errand? i) ++
      (rest.filterMap (Instr.errand? i) ++ (next.world.book i).errands) := by
  simp [outstanding, followedBy, World.book]

namespace Config.Balances

theorem of_book {issued performed : List Errand} {b : Book} (hissues : x.issues i w = issued)
    (hperforms : x.performs i w = performed) (hbook : next.world.book i = b)
    (herrands : (x.errand? i).toList ++ (rest.filterMap (Instr.errand? i) ++ (w.book i).errands) ++
      issued = performed ++ (next.todo.filterMap (Instr.errand? i) ++
        (rest.filterMap (Instr.errand? i) ++ b.errands)))
    (hputs : b.puts = (issued.filter Errand.isPut).reverse ++ (w.book i).puts)
    (hdispatched : b.dispatched =
      (performed.filterMap Errand.action?).reverse ++ (w.book i).dispatched) :
    Config.Balances i ⟨x :: rest, w⟩ (next.followedBy rest) := by
  subst hissues hperforms hbook
  refine ⟨?_, hputs, hdispatched⟩
  rw [outstanding_cons, outstanding_followedBy]
  exact herrands

/-- An instruction that has nothing to do with errands. -/
theorem of_abstains (hx : x.errand? i = none) (hissues : x.issues i w = [])
    (hperforms : x.performs i w = []) (h : w.Abstains i next) :
    Config.Balances i ⟨x :: rest, w⟩ (next.followedBy rest) :=
  of_book hissues hperforms rfl (by simp [hx, h.todo, h.errands]) h.puts h.dispatched

/-- An instruction of another middleware. -/
theorem of_spares (hij : i ≠ j) (hx : x.owner? = some j) (hn : x.exec w = some next) :
    Config.Balances i ⟨x :: rest, w⟩ (next.followedBy rest) := by
  have h := World.Spares.exec hij hx hn
  have hne : x.owner? ≠ some i := by
    rw [hx]
    exact fun h => hij (Option.some.inj h).symm
  have hji : j ≠ i := fun h => hij h.symm
  have hissues : x.issues i w = [] := by
    cases x with
    | trigger turn b nests e =>
      cases hx
      cases e with
      | put target => exact if_neg fun h => hji h.1
      | _ => rfl
    | op => cases hx
    | _ => rfl
  have hperforms : x.performs i w = [] := by
    cases x with
    | emit => cases hx; exact if_neg hji
    | perform k job =>
      cases hx
      cases job with
      | reaction => rfl
      | errand e =>
        cases e with
        | dispatch => rfl
        | _ => exact if_neg hji
    | op => cases hx
    | _ => rfl
  exact of_abstains (Instr.errand?_of_owner hne) hissues hperforms h.abstains

end Config.Balances

/-! ## The driver -/

theorem Agenda.errands_of_next? {a a' : Agenda} {job : Job} (h : a.next? = some (job, a')) :
    (∃ r, job = .reaction r ∧ a'.errands = a.errands) ∨
      ∃ e, job = .errand e ∧ a.errands = e :: a'.errands := by
  unfold Agenda.next? at h
  simp only at h
  split at h
  · cases h
    exact Or.inl ⟨_, rfl, rfl⟩
  · split at h
    · rename_i e rest he
      cases h
      exact Or.inr ⟨e, rfl, he⟩
    · cases h

theorem World.book_next (hi : w.Has i) (a : Agenda) :
    (w.setEngine i fun e => { e with agenda := a }).book i =
      { w.book i with errands := a.errands } := by
  simp only [World.book, World.engine_setEngine hi]
  rfl

theorem World.book_fetched (e : Errand) : (w.record i (.fetched e)).book i = w.book i :=
  World.book_record_unbooked ⟨rfl, rfl, rfl, rfl⟩

/-- What an errand comes to is booked later, when an action is sent; but an end is booked at once. -/
theorem World.book_execPerform {e : Errand} (he : e ≠ .finish) :
    (w.execPerform i (.errand e)).world.book i = w.book i := by
  cases e with
  | dispatch => exact World.book_fetched _
  | put => exact ((World.Plain.putForEffect ..).book i).trans (World.book_fetched _)
  | finish => exact absurd rfl he

theorem World.book_execFinish (hi : w.Has i) :
    (w.execPerform i (.errand .finish)).world.book i = { w.book i with
      watermark := some (w.engine i).nextTask
      marks := (w.engine i).nextTask :: (w.book i).marks } := by
  refine (World.book_endBus (w := w.record i (.fetched .finish)) hi).trans ?_
  rw [World.book_fetched]
  rfl

theorem World.book_execEmit (hi : w.Has i) (a : Action) (sender : Sender) :
    (w.execEmit i a sender).world.book i =
      { w.book i with dispatched := a :: (w.book i).dispatched } := by
  obtain ⟨m, hm⟩ := hi
  have hsent : (w.record i (.dispatched a)).book i =
      { w.book i with dispatched := a :: (w.book i).dispatched } := by
    rw [World.book_record, if_pos rfl]
    rfl
  unfold World.execEmit
  rw [hm]
  simp only
  split
  · exact hsent
  · exact (World.book_enter (e := .host i _ a) trivial).trans hsent

namespace Config.Balances

/-- The oldest errand is taken when its turn has come. -/
theorem drain (hi : w.Has i) (hrest : rest.filterMap (Instr.errand? i) = []) :
    Config.Balances i ⟨.drain i :: rest, w⟩ ((w.execDrain i).followedBy rest) := by
  unfold World.execDrain
  split
  · have hb := World.book_setEngine (w := w) (i := i) (j := i)
      (f := fun e => { e with agenda := e.agenda.flush, driving := false }) fun _ => ⟨rfl, rfl, rfl⟩
    exact of_abstains rfl rfl rfl ⟨rfl, by rw [hb], by rw [hb], by rw [hb]⟩
  · rename_i job a hnext
    have hb := World.book_next hi a
    rcases Agenda.errands_of_next? hnext with ⟨r, rfl, he⟩ | ⟨e, rfl, he⟩
    · exact of_abstains rfl rfl rfl ⟨rfl, by rw [hb]; exact he, by rw [hb], by rw [hb]⟩
    · refine of_book rfl rfl hb ?_ rfl rfl
      rw [hrest, show (w.book i).errands = e :: a.errands from he]
      simp [Instr.errand?, Instr.underway?, Instr.issues, Instr.performs]

/-- An errand is carried out at once, but for a dispatch, which is sent next. -/
theorem perform (hi : w.Has i) (e : Errand) :
    Config.Balances i ⟨.perform i (.errand e) :: rest, w⟩
      ((w.execPerform i (.errand e)).followedBy rest) := by
  cases e with
  | dispatch a reply =>
    have hreply : Sender.reply? (reply.elim .nobody .effect) = reply := by cases reply <;> rfl
    refine of_book rfl rfl (World.book_execPerform (by simp)) ?_ rfl rfl
    simp [World.execPerform, Instr.errand?, Instr.underway?, Instr.issues, Instr.performs, hreply]
  | put c v reply =>
    have hplain : (w.record i (.fetched (.put c v reply))).Plain
        ((w.record i (.fetched (.put c v reply))).putForEffect i c v reply) := .putForEffect ..
    refine of_book rfl (if_pos rfl) (World.book_execPerform (by simp)) ?_ rfl rfl
    rw [World.execPerform, filterMap_errand?_of_all hplain.todo]
    simp [Instr.errand?, Instr.underway?, Instr.issues]
  | finish =>
    refine of_book rfl (if_pos rfl) (World.book_execFinish hi) ?_ rfl rfl
    simp [World.execPerform, Instr.errand?, Instr.underway?, Instr.issues]

/-- An action is sent. -/
theorem emit (hi : w.Has i) (a : Action) (sender : Sender) :
    Config.Balances i ⟨.emit i a sender :: rest, w⟩ ((w.execEmit i a sender).followedBy rest) := by
  have htodo : (w.execEmit i a sender).todo.filterMap (Instr.errand? i) = [] := by
    unfold World.execEmit
    split
    · rfl
    · simp only
      split <;> rfl
  refine of_book rfl (if_pos rfl) (World.book_execEmit hi a sender) ?_ rfl rfl
  rw [htodo]
  simp [Instr.errand?, Instr.underway?, Instr.issues]

end Config.Balances

/-! ## Effects and the end of tasks -/

/-- A put that is triggered leaves one errand, unless its task is over. -/
theorem World.book_execTrigger (hi : w.Has i) (t : TaskId) (b : Body) (nests : List Nest)
    (target : Target) (hl : w.isHalted i t = false) :
    (w.execTrigger ⟨i, t⟩ b nests (.put target)).world.book i =
      { w.book i with
        puts := target.errand (w.engine i).nextEffect :: (w.book i).puts
        errands := (w.book i).errands ++ [target.errand (w.engine i).nextEffect] } := by
  let x := (w.engine i).nextEffect
  let w₁ := (w.setEngine i fun e => { e with nextEffect := x + 1 }).record i
    (.triggered t x (Nest.link nests).parent? (.put target))
  have hnext : w.execTrigger ⟨i, t⟩ b nests (.put target) = w₁.startPut ⟨i, t⟩ b nests x target :=
    if_neg (by simp [hl])
  have hbook₁ : w₁.book i = { w.book i with puts := target.errand x :: (w.book i).puts } := by
    have hset : (w.setEngine i fun e => { e with nextEffect := x + 1 }).book i = w.book i := by simp
    rw [World.book_record, if_pos rfl, hset]
    rfl
  have hi₁ : (w₁.insertWait i x { task := t, link := Nest.link nests, kind := .put }).Has i := by
    have h := (World.Advances.start hi).setEngine (f := fun e => { e with nextEffect := x + 1 })
      (fun k => { k with nextEffect := x + 1 }) fun _ => rfl
    exact ((h.record _).setEngine (fun k => { k with waits := k.waits.insert x _ }) fun _ => rfl).has'
  rw [hnext]
  refine (World.book_queue hi₁ _).trans ?_
  rw [World.book_insertWait, hbook₁]
  cases target <;> rfl

/-- A put that is triggered issues one errand, unless its task is over. -/
theorem Config.Balances.trigger (hi : w.Has i) (t : TaskId) (b : Body) (nests : List Nest)
    (target : Target) : Config.Balances i ⟨.trigger ⟨i, t⟩ b nests (.put target) :: rest, w⟩
      ((w.execTrigger ⟨i, t⟩ b nests (.put target)).followedBy rest) := by
  cases hhalted : w.isHalted i t with
  | true =>
    have hnext : w.execTrigger ⟨i, t⟩ b nests (.put target) =
        ⟨[.begun ⟨i, t⟩ b nests .halt], w⟩ := if_pos hhalted
    have hissues : (Instr.trigger ⟨i, t⟩ b nests (.put target)).issues i w = [] :=
      if_neg fun h => by simp [hhalted] at h
    rw [hnext]
    exact of_abstains rfl hissues rfl ⟨rfl, rfl, rfl, rfl⟩
  | false =>
    have hissues : (Instr.trigger ⟨i, t⟩ b nests (.put target)).issues i w =
        [target.errand (w.engine i).nextEffect] := if_pos ⟨rfl, hhalted⟩
    have htodo : (w.execTrigger ⟨i, t⟩ b nests (.put target)).todo.filterMap (Instr.errand? i) = [] := by
      rw [World.execTrigger, if_neg (by simp [hhalted])]
      rfl
    have hput : (target.errand (w.engine i).nextEffect).isPut = true := by cases target <;> rfl
    refine of_book hissues rfl (World.book_execTrigger hi t b nests target hhalted) ?_ ?_ rfl
    · rw [htodo]
      simp [Instr.errand?, Instr.underway?, Instr.performs]
    · rw [List.filter_cons_of_pos hput]
      rfl

namespace World.Abstains

theorem finalize (hi : w.Has i) (t : TaskId) (o : Outcome) :
    ((w.finalize i t o).2.book i).errands = (w.book i).errands ∧
      ((w.finalize i t o).2.book i).puts = (w.book i).puts ∧
      ((w.finalize i t o).2.book i).dispatched = (w.book i).dispatched := by
  cases hn : w.task? i t with
  | none =>
    rw [finalize_of_absent hn]
    exact ⟨rfl, rfl, rfl⟩
  | some n =>
    rw [book_finalize hi hn]
    exact ⟨rfl, rfl, rfl⟩

theorem cascadeOn (hi : w.Has i) (t : TaskId) (o : Outcome) :
    w.Abstains i (World.cascadeOn i (w.finalize i t o)) := by
  obtain ⟨he, hp, hd⟩ := finalize hi t o
  unfold World.cascadeOn
  split <;> exact ⟨rfl, he, hp, hd⟩

theorem of_book (hb : w'.book i = w.book i) (h : w'.Abstains i next) : w.Abstains i next :=
  ⟨h.todo, h.errands.trans (congrArg Book.errands hb), h.puts.trans (congrArg Book.puts hb),
    h.dispatched.trans (congrArg Book.dispatched hb)⟩

/-- Neither does the end of a task. -/
theorem abortDone (hi : w.Has i) (t : TaskId) (f : Fault) (wasCurrent : Bool) :
    w.Abstains i (w.execAbortDone ⟨i, t⟩ f wasCurrent) := by
  cases wasCurrent with
  | true =>
    exact of_book (World.book_setEngine (j := i) (f := fun e => { e with halted := some (.aborted f) })
      fun _ => ⟨rfl, rfl, rfl⟩) ⟨rfl, rfl, rfl, rfl⟩
  | false => exact cascadeOn hi t _

theorem conclude (hi : w.Has i) (t : TaskId) : w.Abstains i (w.execConclude ⟨i, t⟩) :=
  of_book (World.book_setEngine (j := i) (f := fun e => { e with halted := none }) fun _ => ⟨rfl, rfl, rfl⟩)
    (cascadeOn (World.has_setEngine.2 hi) t _)

theorem cascade (hi : w.Has i) (c : Cascade) : w.Abstains i (w.execCascade i c) := by
  have hleft : ∀ todo : List Instr, todo.filterMap (Instr.errand? i) = [] → w.Abstains i ⟨todo, w⟩ :=
    fun todo ht => ⟨ht, rfl, rfl, rfl⟩
  cases c with
  | abort => exact hleft _ rfl
  | complete t =>
    unfold World.execCascade
    simp only
    split
    · exact hleft _ rfl
    · split
      · exact hleft _ rfl
      · split
        · exact hleft _ rfl
        · exact of_book (World.book_setTask t fun n => { n with result := none })
            (cascadeOn (World.has_setEngine.2 hi) t _)

theorem cancelOne (hi : w.Has i) (t : TaskId) (wasCurrent : Bool) (order : List TaskId)
    (cascades : List Cascade) : w.Abstains i (w.execCancelOne ⟨i, t⟩ wasCurrent order cascades) := by
  cases wasCurrent with
  | true =>
    exact of_book (World.book_setEngine (j := i) (f := fun e => { e with halted := some .cancelled })
      fun _ => ⟨rfl, rfl, rfl⟩) ⟨rfl, rfl, rfl, rfl⟩
  | false =>
    obtain ⟨he, hp, hd⟩ := finalize hi t .cancelled
    exact ⟨rfl, he, hp, hd⟩

/-! ## Operations -/

theorem answerOp (site : Site) (o : Op) (r : Reply) : w.Abstains i (w.answerOp site o r) :=
  ⟨rfl, rfl, rfl, rfl⟩

theorem opDispatch (hij : i ≠ j) (site : Site) (a : Action) :
    w.Abstains i (w.opDispatch site j a) := by
  unfold World.opDispatch
  split
  · exact of_book (World.untouched_queue hij _).book ⟨rfl, rfl, rfl, rfl⟩
  · refine of_book (World.untouched_setEngine hij _).book ⟨?_, rfl, rfl, rfl⟩
    simp [Instr.errand?, Instr.underway?, Ne.symm hij]

theorem opFinish (hij : i ≠ j) (site : Site) : w.Abstains i (w.opFinish site j) := by
  unfold World.opFinish
  split
  · exact of_book (World.untouched_queue hij _).book ⟨rfl, rfl, rfl, rfl⟩
  · have hplain : (w.endBus j).Plain (((w.endBus j).enterDriver j []).followedBy
        [.reply site "end" .ok]) := (World.Plain.enterDriver (fun _ => rfl) rfl).followedBy rfl
    exact of_book (World.book_endBus_of_ne hij) hplain.abstains

/-- A middleware that has nothing queued is dropped without a loss. -/
theorem opDrop {site : Site} (he : site = .outside → j = i → (w.book i).errands = []) :
    w.Abstains i (w.opDrop site j) := by
  unfold World.opDrop
  split
  · rename_i m hm
    have htodo : (dropBodies j m.engine.tasks ++
        [Instr.reply .outside "drop_mw" (.bool true)]).filterMap (Instr.errand? i) = [] :=
      filterMap_errand?_of_all (by simp [dropBodies, Instr.underway?])
    by_cases hij : i = j
    · subst hij
      refine ⟨htodo, ?_, rfl, rfl⟩
      rw [he rfl rfl]
      simp [World.book, World.engine]
    · have hb : World.book { w with
          middlewares := w.middlewares.insert j
            { m with alive := false, engine := { outcomes := m.engine.outcomes } } } i = w.book i :=
        World.Untouched.book ⟨by simp [World.engine, hij], rfl, by simp [World.alive?, hij]⟩
      exact ⟨htodo, congrArg Book.errands hb, congrArg Book.puts hb, congrArg Book.dispatched hb⟩
  · exact ⟨rfl, rfl, rfl, rfl⟩
  · exact ⟨rfl, rfl, rfl, rfl⟩

end World.Abstains

/-- The errands that an operation issues to a middleware, when there was time for it. -/
theorem Instr.issues_op (site : Site) (env : Env) (o : Op) (hs : w.spend = some w') :
    (Instr.op site env o).issues i w = match o with
      | .dispatch j a =>
        if j = i then ((w'.living? i).map fun _ => .dispatch (w'.evalAction env a) none).toList else []
      | .finish j => if j = i then ((w'.living? i).map fun _ => .finish).toList else []
      | _ => [] := by
  have hliving : w'.living? i = w.living? i := by
    unfold World.spend at hs
    split at hs <;> cases hs
    rfl
  cases o with
  | dispatch => simp [issues, hs]
  | finish => simp [issues, hliving]
  | _ => rfl

namespace Config.Balances

variable {site : Site} {env : Env}

/-- What is asked for while the driver is at work is queued behind what is queued. -/
theorem of_queued {o : Op} {e : Errand} {name : String} {r : Reply} (hi : w'.Has i)
    (hb : w'.book i = w.book i) (he : e.isPut = false) (hissues : (Instr.op site env o).issues i w = [e])
    (hperforms : (Instr.op site env o).performs i w = []) :
    Config.Balances i ⟨.op site env o :: rest, w⟩
      (Config.followedBy ⟨[.reply site name r], w'.queue i e⟩ rest) := by
  have hq := World.book_queue hi e
  rw [hb] at hq
  refine of_book hissues hperforms hq ?_ ?_ rfl
  · simp [Instr.errand?, Instr.underway?]
  · simp [he]

/-- A dispatch is queued, or sent at once when nothing is. -/
theorem opDispatch (hi : w'.Has i) (hs : w.spend = some w') (hidle : (w'.engine i).driving = false →
      rest.filterMap (Instr.errand? i) = [] ∧ (w.book i).errands = []) (a : ActionExpr) :
    Config.Balances i ⟨.op site env (.dispatch j a) :: rest, w⟩
      ((w'.runOp site env (.dispatch j a)).followedBy rest) := by
  have hissues := Instr.issues_op (i := i) site env (.dispatch j a) hs
  have hb : w'.book i = w.book i := World.book_spend hs
  by_cases hij : j = i
  · subst hij
    cases hm : w'.living? j with
    | none =>
      simp only [World.runOp, World.withMiddleware, hm]
      refine of_abstains rfl (hissues.trans ?_) rfl (.of_book hb (.answerOp ..))
      simp [hm]
    | some m =>
      simp only [if_true, hm, Option.map_some, Option.toList_some] at hissues
      simp only [World.runOp, World.withMiddleware, hm, World.opDispatch]
      cases hd : (w'.engine j).driving with
      | true => exact of_queued hi hb rfl hissues rfl
      | false =>
        obtain ⟨hrest, he⟩ := hidle hd
        have hset : (w'.setEngine j fun e => { e with driving := true }).book j = w.book j := by
          simp [hb]
        refine of_book hissues rfl hset ?_ rfl rfl
        simp [Instr.errand?, Instr.underway?, Instr.performs, hrest, he, Sender.reply?]
  · refine of_abstains rfl (hissues.trans (if_neg hij)) rfl (.of_book hb ?_)
    simp only [World.runOp, World.withMiddleware]
    split
    · exact .answerOp ..
    · exact .opDispatch (Ne.symm hij) ..

/-- An end is queued, or comes at once when nothing is. -/
theorem opFinish (hi : w'.Has i) (hs : w.spend = some w') (hidle : (w'.engine i).driving = false →
      rest.filterMap (Instr.errand? i) = [] ∧ (w.book i).errands = []) :
    Config.Balances i ⟨.op site env (.finish j) :: rest, w⟩
      ((w'.runOp site env (.finish j)).followedBy rest) := by
  have hissues := Instr.issues_op (i := i) site env (.finish j) hs
  have hb : w'.book i = w.book i := World.book_spend hs
  have hperforms : (Instr.op site env (.finish j)).performs i w =
      if j = i ∧ (w'.engine i).driving = false then
        ((w'.living? i).map fun _ => .finish).toList else [] := by
    obtain ⟨n, rfl⟩ := World.spend_eq hs
    rfl
  by_cases hij : j = i
  · subst hij
    cases hm : w'.living? j with
    | none =>
      simp only [World.runOp, World.withMiddleware, hm]
      refine of_abstains rfl (hissues.trans ?_) (hperforms.trans ?_) (.of_book hb (.answerOp ..)) <;>
        simp [hm]
    | some m =>
      simp only [if_true, hm, Option.map_some, Option.toList_some] at hissues
      simp only [World.runOp, World.withMiddleware, hm, World.opFinish]
      cases hd : (w'.engine j).driving with
      | true =>
        refine of_queued hi hb rfl hissues (hperforms.trans ?_)
        simp [hd]
      | false =>
        obtain ⟨hrest, he⟩ := hidle hd
        simp only [hd, hm, and_self, if_true, Option.map_some, Option.toList_some] at hperforms
        have hplain : (w'.endBus j).Plain (((w'.endBus j).enterDriver j []).followedBy
            [.reply site "end" .ok]) := (World.Plain.enterDriver (fun _ => rfl) rfl).followedBy rfl
        have hbook := (hplain.book j).trans (World.book_endBus hi)
        rw [hb] at hbook
        refine of_book hissues hperforms hbook ?_ rfl rfl
        have htodo := filterMap_errand?_of_all (i := j) hplain.todo
        simp [Instr.errand?, Instr.underway?, hrest, he, htodo]
  · refine of_abstains rfl (hissues.trans (if_neg hij)) (hperforms.trans (if_neg fun h => hij h.1))
      (.of_book hb ?_)
    simp only [World.runOp, World.withMiddleware]
    split
    · exact .answerOp ..
    · exact .opFinish (Ne.symm hij) ..

/-- A middleware that has nothing queued may be dropped. -/
theorem opDrop (hs : w.spend = some w')
    (he : site = .outside → j = i → (w.book i).errands = []) :
    Config.Balances i ⟨.op site env (.drop j) :: rest, w⟩
      ((w'.runOp site env (.drop j)).followedBy rest) := by
  have hb : w'.book i = w.book i := World.book_spend hs
  exact of_abstains rfl rfl rfl (.of_book hb (.opDrop fun ho hij => by rw [hb, he ho hij]))

/-- An instruction that does not concern the books. -/
theorem of_not_writes (hx : ¬ x.Writes) (hn : x.exec w = some next) :
    Config.Balances i ⟨x :: rest, w⟩ (next.followedBy rest) := by
  have h := (Instr.plain_exec hx hn).abstains (i := i)
  cases x with
  | drain | emit | abortDone | conclude | cascade | cancelOne => exact absurd trivial hx
  | perform k job =>
    cases job with
    | reaction => exact of_abstains rfl rfl rfl h
    | errand => exact absurd trivial hx
  | trigger turn b nests e =>
    cases e with
    | put => exact absurd trivial hx
    | _ => exact of_abstains rfl rfl rfl h
  | op site env o =>
    cases o with
    | dispatch | finish => exact absurd trivial hx
    | _ => exact of_abstains rfl rfl rfl h
  | _ => exact of_abstains rfl rfl rfl h

/-- An instruction of the middleware itself. -/
theorem of_own (hi : w.Has i) (hx : x.owner? = some i)
    (hrest : x = .drain i → rest.filterMap (Instr.errand? i) = []) (hn : x.exec w = some next) :
    Config.Balances i ⟨x :: rest, w⟩ (next.followedBy rest) := by
  by_cases hw : x.Writes
  · cases x with
    | drain j => cases hx; cases hn; exact drain hi (hrest rfl)
    | emit j a sender => cases hx; cases hn; exact emit hi a sender
    | perform j job =>
      cases hx
      cases hn
      cases job with
      | reaction => exact hw.elim
      | errand e => exact perform hi e
    | trigger turn b nests e =>
      obtain ⟨j, t⟩ := turn
      cases hx
      cases hn
      cases e with
      | put target => exact trigger hi t b nests target
      | _ => exact hw.elim
    | abortDone turn f wasCurrent =>
      obtain ⟨j, t⟩ := turn
      cases hx
      cases hn
      exact of_abstains rfl rfl rfl (.abortDone hi t f wasCurrent)
    | conclude turn =>
      obtain ⟨j, t⟩ := turn
      cases hx
      cases hn
      exact of_abstains rfl rfl rfl (.conclude hi t)
    | cascade j c => cases hx; cases hn; exact of_abstains rfl rfl rfl (.cascade hi c)
    | cancelOne turn wasCurrent order cascades =>
      obtain ⟨j, t⟩ := turn
      cases hx
      cases hn
      exact of_abstains rfl rfl rfl (.cancelOne hi t wasCurrent order cascades)
    | op => cases hx
    | _ => exact hw.elim
  · exact of_not_writes hw hn

end Config.Balances

namespace Scenario.Visits

variable {s : Scenario} {c c' : Config}

/-- A middleware at rest has no errands left. -/
theorem rests (h : s.Visits c) (hi : c.world.Has i) (hF : framesOf i c.todo = []) :
    (c.world.book i).errands = [] :=
  congrArg Agenda.errands ((h.sound hi).framed.idle hF)

/-- The books balance in every step. -/
theorem balances (h : s.Visits c) (hi : c.world.Has i) (hc : c.step = some c') :
    Config.Balances i c c' := by
  obtain ⟨todo, w⟩ := c
  cases todo with
  | nil => cases hc
  | cons x rest =>
  obtain ⟨next, hn, rfl⟩ := Option.map_eq_some_iff.1 hc
  have hframed := (h.sound hi).framed
  cases ho : x.owner? with
  | some j =>
    by_cases hij : i = j
    · subst hij
      refine .of_own hi ho (fun hx => ?_) hn
      subst hx
      have hframes : framesOf i (.drain i :: rest) = .drain i :: framesOf i rest := by
        simp [framesOf, Instr.owner?]
      have hstack := hframed.stack
      rw [show (Config.view ⟨.drain i :: rest, w⟩ i).frames = _ from hframes] at hstack
      exact filterMap_errand?_of_framesOf hstack.of_drain.2
    · exact .of_spares hij ho hn
  | none =>
    have hF : framesOf i (x :: rest) = framesOf i rest := by simp [framesOf, ho]
    by_cases hw : x.Writes
    · cases x with
      | op site env o =>
        obtain ⟨w', hs, rfl⟩ := Option.map_eq_some_iff.1 hn
        have hu := World.Enacts.GoesOn.spend (fun i => .refl i w) hs i
        have hidle : (w'.engine i).driving = false →
            rest.filterMap (Instr.errand? i) = [] ∧ (w.book i).errands = [] := by
          intro hd
          have hnone : framesOf i (.op site env o :: rest) = [] := by
            by_contra hne
            have hd' : (w.engine i).driving = true := hframed.driving.2 hne
            rw [← hu.engine, hd] at hd'
            cases hd'
          exact ⟨filterMap_errand?_of_framesOf (hF ▸ hnone), h.rests hi hnone⟩
        cases o with
        | dispatch j a => exact .opDispatch (hu.has.2 hi) hs hidle a
        | finish j => exact .opFinish (hu.has.2 hi) hs hidle
        | drop j =>
          refine .opDrop hs fun hsite _ => ?_
          subst hsite
          rcases h.knows.todo with ⟨o, hone⟩ | hall
          · cases hone
            exact h.rests hi rfl
          · exact (hall _ List.mem_cons_self).elim
        | _ => exact hw.elim
      | _ => first | exact hw.elim | cases ho
    · exact .of_not_writes hw hn

end Scenario.Visits

theorem World.Fresh.book (h : w.Fresh) : w.book i = ⟨[], .empty, none, [], [], [], []⟩ := by
  simp only [World.book, h.engine, World.past, h.journal]
  rfl

namespace Scenario.Logs

variable {s : Scenario} {c : Config} {issued performed : List Errand}

theorem visits (h : s.Logs i issued performed c) : s.Visits c := by
  induction h with
  | start h => exact .start h
  | call _ o budget ih => exact .call ih o budget
  | step _ hc ih => exact .step ih hc

/-- What was issued was carried out, or it is still to be, in this order; and so the books say. -/
theorem balance (h : s.Logs i issued performed c) (hi : c.world.Has i) :
    issued = performed ++ c.outstanding i ∧
      (c.world.book i).puts = (issued.filter Errand.isPut).reverse ∧
      (c.world.book i).dispatched = (performed.filterMap Errand.action?).reverse := by
  induction h with
  | start h =>
    have hb := (setUp_fresh h).book (i := i)
    exact ⟨(congrArg Book.errands hb).symm, congrArg Book.puts hb, congrArg Book.dispatched hb⟩
  | call h o budget ih => exact ih hi
  | step h hc ih =>
    obtain ⟨hissued, hputs, hdispatched⟩ := ih ((h.visits.knows.has_iff hc i).1 hi)
    have hb := h.visits.balances ((h.visits.knows.has_iff hc i).1 hi) hc
    refine ⟨?_, ?_, ?_⟩
    · rw [hissued, List.append_assoc, hb.errands, List.append_assoc]
    · rw [hb.puts, hputs, List.filter_append, List.reverse_append]
    · rw [hb.dispatched, hdispatched, List.filterMap_append, List.reverse_append]

/--
Errands keep their order: those that were carried out are the first of those that were issued, in
the order in which they were issued, and the others are still to be carried out; none is left when
no frame of the middleware is. The puts that were triggered are the puts that were issued, and the
actions that were sent are those of the dispatches that were carried out.
-/
theorem in_order (h : s.Logs i issued performed c) (hi : c.world.Has i) :
    issued = performed ++ c.outstanding i ∧
      (framesOf i c.todo = [] → issued = performed) ∧
      (c.world.past i).reverse.filterMap Event.put? = issued.filter Errand.isPut ∧
      (c.world.past i).reverse.filterMap Event.dispatched? = performed.filterMap Errand.action? := by
  obtain ⟨hissued, hputs, hdispatched⟩ := h.balance hi
  refine ⟨hissued, fun hF => ?_, ?_, ?_⟩
  · have hnone : c.outstanding i = [] := by
      rw [Config.outstanding, filterMap_errand?_of_framesOf hF]
      exact h.visits.rests hi hF
    rw [hissued, hnone, List.append_nil]
  · rw [List.filterMap_reverse, ← List.reverse_inj, List.reverse_reverse]
    exact hputs
  · rw [List.filterMap_reverse, ← List.reverse_inj, List.reverse_reverse]
    exact hdispatched

end Scenario.Logs

/-- Every run can be logged. -/
theorem Scenario.Visits.logs {s : Scenario} {c : Config} (h : s.Visits c) (i : MiddlewareId) :
    ∃ issued performed, s.Logs i issued performed c := by
  induction h with
  | start h => exact ⟨[], [], .start h⟩
  | call _ o budget ih =>
    obtain ⟨issued, performed, ih⟩ := ih
    exact ⟨issued, performed, .call ih o budget⟩
  | step _ hc ih =>
    obtain ⟨issued, performed, ih⟩ := ih
    exact ⟨_, _, .step ih hc⟩

/-- A body dispatches, then races two puts. -/
def Scenario.racesPuts : Scenario where
  middlewares := [{}]
  scripts := [("racer", [
    .ops [.dispatch 0 { kind := "first" }],
    .perform (.racePositional [.dispatch { kind := "second" }, .dispatch { kind := "third" }]) none none,
    .return .unit])]

theorem Scenario.in_order_racesPuts : ∃ issued performed c,
    racesPuts.Logs 0 issued performed c ∧ issued = performed ++ c.outstanding 0 ∧
      (performed.filterMap Errand.action?).map Action.kind = ["first"] ∧
      ((c.outstanding 0).filterMap Errand.action?).map Action.kind = ["second", "third"] ∧
      (issued.filter Errand.isPut).length = 2 := by
  have h : ((racesPuts.during? (.run 0 { source := .named "racer" } none) 24).any fun c =>
      (c.world.alive? 0).isSome &&
        decide (((c.world.past 0).reverse.filterMap Event.dispatched?).map Action.kind = ["first"] ∧
          ((c.outstanding 0).filterMap Errand.action?).map Action.kind = ["second", "third"] ∧
          ((c.world.past 0).reverse.filterMap Event.put?).length = 2)) = true := by
    decide +kernel
  obtain ⟨c, hc, h⟩ := (Option.any_eq_true ..).1 h
  obtain ⟨hi, h⟩ := (Bool.and_eq_true ..).mp h
  obtain ⟨hsent, hleft, hputs⟩ := of_decide_eq_true h
  obtain ⟨issued, performed, hlogs⟩ := (Visits.of_during? hc).logs 0
  obtain ⟨hissued, -, hissuedPuts, hperformed⟩ := hlogs.in_order (World.has_iff.2 hi)
  exact ⟨issued, performed, c, hlogs, hissued, hperformed ▸ hsent, hleft, hissuedPuts ▸ hputs⟩

end

end SagaMachine
