import Mathlib.Data.List.Forall2
import Mathlib.Data.List.Induction
import Mathlib.Data.List.TakeWhile
import Mathlib.Data.Nat.Digits.Defs
import SagaMachine.Settings

/-!
# The texts of settings

Which texts denote a flag, and which a size, is said here by a grammar: what stands between blanks
is one of eight words, in any case, or at most one plus sign and then decimal digits, whose number
is read off their places. The settings are read from exactly these texts, and the first text that
is not one of them decides the fault. What is written in the summary of some settings is among
these texts, so it reads back as the same settings.

Main statement: `Settings.ofLookup_spec`.
-/

namespace SagaMachine

namespace Text

/-- What is left of a text without the blanks around it. -/
structure Trims (cs core : List Char) : Prop where
  around : ∃ before after, cs = before ++ core ++ after ∧
    (∀ c ∈ before, isBlank c = true) ∧ ∀ c ∈ after, isBlank c = true
  first : ∀ c ∈ core.head?, isBlank c = false
  last : ∀ c ∈ core.getLast?, isBlank c = false

theorem dropWhile_append_of_forall {p : Char → Bool} {before cs : List Char}
    (hb : ∀ c ∈ before, p c = true) (hc : ∀ c ∈ cs.head?, p c = false) :
    (before ++ cs).dropWhile p = cs := by
  rw [List.dropWhile_append_of_pos hb]
  cases cs with
  | nil => rfl
  | cons c cs => exact List.dropWhile_cons_of_neg (by simp [hc c rfl])

theorem head?_dropWhile {p : Char → Bool} {cs : List Char} :
    ∀ c ∈ (cs.dropWhile p).head?, p c = false := by
  intro c hc
  have h := List.head?_dropWhile_not p cs
  rw [Option.mem_def] at hc
  rwa [hc] at h

theorem trims_iff {cs core : List Char} : Trims cs core ↔ trimChars cs = core := by
  constructor
  · rintro ⟨⟨before, after, rfl, hbefore, hafter⟩, hfirst, hlast⟩
    rw [trimChars, List.append_assoc]
    cases core with
    | nil =>
      have hall : ∀ c ∈ before ++ ([] ++ after), isBlank c = true := by
        intro c hc
        exact (List.mem_append.1 hc).elim (hbefore c) (hafter c)
      rw [List.dropWhile_eq_nil_iff.2 hall]
      rfl
    | cons c core =>
      have hleft : ∀ d ∈ (c :: core ++ after).head?, isBlank d = false := hfirst
      have hright : ∀ d ∈ (c :: core).reverse.head?, isBlank d = false := by
        rwa [List.head?_reverse]
      rw [dropWhile_append_of_forall hbefore hleft, List.reverse_append,
        dropWhile_append_of_forall (by simpa using hafter) hright, List.reverse_reverse]
  · rintro rfl
    have hcs := List.takeWhile_append_dropWhile (p := isBlank) (l := cs)
    have hds := List.takeWhile_append_dropWhile (p := isBlank) (l := (cs.dropWhile isBlank).reverse)
    have hrest : trimChars cs ++ ((cs.dropWhile isBlank).reverse.takeWhile isBlank).reverse =
        cs.dropWhile isBlank := by
      rw [trimChars, ← List.reverse_append, hds, List.reverse_reverse]
    refine ⟨⟨cs.takeWhile isBlank, ((cs.dropWhile isBlank).reverse.takeWhile isBlank).reverse, ?_,
      fun c hc => List.mem_takeWhile_imp hc, fun c hc => ?_⟩, fun c hc => ?_, fun c hc => ?_⟩
    · rw [List.append_assoc, hrest, hcs]
    · exact List.mem_takeWhile_imp (List.mem_reverse.1 hc)
    · -- what is trimmed on the right comes after the first character that is left
      have hhead : c ∈ (cs.dropWhile isBlank).head? := by
        rw [← hrest, List.head?_append, hc]
        rfl
      exact head?_dropWhile c hhead
    · rw [trimChars, List.getLast?_reverse] at hc
      exact head?_dropWhile c hc

/-- A text without blanks stands between blanks. -/
theorem trims_between {before core after : List Char} (hb : ∀ c ∈ before, isBlank c = true)
    (ha : ∀ c ∈ after, isBlank c = true) (hc : ∀ c ∈ core, isBlank c = false) :
    Trims (before ++ core ++ after) core where
  around := ⟨before, after, rfl, hb, ha⟩
  first c h := hc c (List.mem_of_head? h)
  last c h := hc c (List.mem_of_getLast? h)

end Text

namespace Settings

open Text

/-! ## Flags -/

/-- A character in lower case: only the letters from `A` to `Z` change. -/
def Lowers (c d : Char) : Prop :=
  if 'A' ≤ c ∧ c ≤ 'Z' then d.toNat = c.toNat + 32 else d = c

/-- The words for the values of a flag. -/
def words : Bool → List String
  | true => ["1", "true", "yes", "on"]
  | false => ["0", "false", "no", "off"]

/-- A text denotes a flag. -/
def FlagText (raw : String) (b : Bool) : Prop :=
  ∃ core, Trims raw.toList core ∧ ∃ word ∈ words b, List.Forall₂ Lowers core word.toList

theorem lowers_iff {c d : Char} : Lowers c d ↔ c.toLower = d := by
  unfold Lowers Char.toLower
  by_cases h : c.val ≥ 'A'.val ∧ c.val ≤ 'Z'.val
  · have hletter : 'A' ≤ c ∧ c ≤ 'Z' := h
    have hge : 65 ≤ c.val.toNat := h.1
    have hle : c.val.toNat ≤ 90 := h.2
    have hshift : ('a'.val - 'A'.val).toNat = 32 := rfl
    rw [if_pos hletter, dif_pos h, ← Char.toNat_inj]
    simp only [Char.toNat, UInt32.toNat_add, hshift]
    omega
  · have hother : ¬ ('A' ≤ c ∧ c ≤ 'Z') := h
    rw [if_neg hother, dif_neg h, eq_comm]

theorem forall₂_lowers {cs : List Char} {word : String} :
    List.Forall₂ Lowers cs word.toList ↔ String.ofList (cs.map Char.toLower) = word := by
  rw [← String.toList_inj, String.toList_ofList, ← List.forall₂_eq_eq_eq,
    List.forall₂_map_left_iff, show Lowers = fun c d => c.toLower = d from
      funext fun c => funext fun d => propext lowers_iff]

theorem flag?_eq (raw : String) : flag? raw =
    if lowerAscii (trim raw) ∈ words true then some true
    else if lowerAscii (trim raw) ∈ words false then some false else none := by
  simp only [flag?, words, List.contains_iff_mem]
  rfl

/-- No word stands for both values. -/
theorem words_apart {word : String} (h : word ∈ words true) : word ∉ words false := by
  simp only [words, List.mem_cons, List.not_mem_nil, or_false] at h
  rcases h with rfl | rfl | rfl | rfl <;> decide

theorem flag?_eq_some {raw : String} {b : Bool} : flag? raw = some b ↔ FlagText raw b := by
  have hword : FlagText raw b ↔ lowerAscii (trim raw) ∈ words b := by
    simp only [FlagText, trims_iff, forall₂_lowers]
    constructor
    · rintro ⟨core, rfl, word, hm, rfl⟩
      rwa [lowerAscii, trim, String.toList_ofList]
    · intro hm
      refine ⟨_, rfl, _, hm, ?_⟩
      rw [lowerAscii, trim, String.toList_ofList]
  rw [hword, flag?_eq]
  generalize lowerAscii (trim raw) = word
  cases b with
  | true =>
    by_cases htrue : word ∈ words true
    · simp [htrue]
    · rw [if_neg htrue]
      refine iff_of_false ?_ htrue
      split <;> simp
  | false =>
    by_cases hfalse : word ∈ words false
    · have htrue : word ∉ words true := fun h => words_apart h hfalse
      simp [htrue, hfalse]
    · rw [if_neg hfalse]
      refine iff_of_false ?_ hfalse
      split <;> simp

/-! ## Sizes -/

/-- The number that decimal digits denote by their places. -/
def placeValue (ds : List Char) : Nat :=
  Nat.ofDigits 10 (ds.reverse.map fun c => c.toNat - '0'.toNat)

/-- A text denotes a size. -/
def SizeText (raw : String) (n : Nat) : Prop :=
  ∃ sign ds, Trims raw.toList (sign ++ ds) ∧ (sign = [] ∨ sign = ['+']) ∧
    ds ≠ [] ∧ (∀ d ∈ ds, '0' ≤ d ∧ d ≤ '9') ∧ placeValue ds = n ∧ n < 2 ^ 64

theorem isDigit_iff {c : Char} : c.isDigit = true ↔ '0' ≤ c ∧ c ≤ '9' := by
  simp only [Char.isDigit, Bool.and_eq_true, decide_eq_true_eq]
  exact Iff.rfl

/-- Reading digits one after the other gives the number that their places give. -/
theorem foldl_eq_placeValue (ds : List Char) :
    ds.foldl (fun n c => n * 10 + (c.toNat - '0'.toNat)) 0 = placeValue ds := by
  induction ds using List.reverseRecOn with
  | nil => rfl
  | append_singleton ds d ih =>
    rw [List.foldl_append, ih, placeValue, placeValue, List.reverse_append]
    simp only [List.foldl_cons, List.foldl_nil, List.reverse_singleton, List.singleton_append,
      List.map_cons, Nat.ofDigits_cons]
    omega

theorem digits?_eq_some {ds : List Char} {n : Nat} : digits? ds = some n ↔
    ds ≠ [] ∧ (∀ d ∈ ds, '0' ≤ d ∧ d ≤ '9') ∧ placeValue ds = n := by
  rw [digits?, foldl_eq_placeValue]
  by_cases hds : ds ≠ [] ∧ ∀ d ∈ ds, '0' ≤ d ∧ d ≤ '9'
  · have hall : ds.all Char.isDigit = true := List.all_eq_true.2 fun d hd => isDigit_iff.2 (hds.2 d hd)
    have hempty : ds.isEmpty = false := by simpa using hds.1
    simp only [hempty, hall, Bool.not_true, Bool.or_self, Bool.false_eq_true, if_false,
      Option.some.injEq]
    exact ⟨fun h => ⟨hds.1, hds.2, h⟩, fun h => h.2.2⟩
  · have hbad : (ds.isEmpty || !ds.all Char.isDigit) = true := by
      simp only [Bool.or_eq_true, List.isEmpty_iff, Bool.not_eq_true', List.all_eq_false]
      by_contra h
      rw [not_or, not_exists] at h
      exact hds ⟨h.1, fun d hd => isDigit_iff.1 (by simpa [hd] using h.2 d)⟩
    rw [if_pos hbad]
    exact iff_of_false nofun fun h => hds ⟨h.1, h.2.1⟩

/-- A text starts with a plus sign that is left out, or it is read as it is. -/
theorem size?_cases (raw : String) :
    (∃ ds, trimChars raw.toList = '+' :: ds ∧ size? raw = (digits? ds).filter (· < 2 ^ 64)) ∨
      (∀ ds, trimChars raw.toList ≠ '+' :: ds) ∧
        size? raw = (digits? (trimChars raw.toList)).filter (· < 2 ^ 64) := by
  simp only [size?]
  generalize trimChars raw.toList = cs
  by_cases hcs : ∃ ds, cs = '+' :: ds
  · obtain ⟨ds, rfl⟩ := hcs
    exact Or.inl ⟨ds, rfl, rfl⟩
  · rw [not_exists] at hcs
    refine Or.inr ⟨hcs, ?_⟩
    split
    · exact absurd rfl (hcs _)
    · rfl

theorem size?_eq_some {raw : String} {n : Nat} : size? raw = some n ↔ SizeText raw n := by
  have hread (ds : List Char) : (digits? ds).filter (· < 2 ^ 64) = some n ↔
      ds ≠ [] ∧ (∀ d ∈ ds, '0' ≤ d ∧ d ≤ '9') ∧ placeValue ds = n ∧ n < 2 ^ 64 := by
    rw [Option.filter_eq_some_iff, digits?_eq_some, decide_eq_true_eq, and_assoc, and_assoc]
  simp only [SizeText, trims_iff]
  rcases size?_cases raw with ⟨ds, hcs, h⟩ | ⟨hcs, h⟩
  · rw [h, hread, hcs]
    constructor
    · exact fun h => ⟨['+'], ds, rfl, Or.inr rfl, h⟩
    · rintro ⟨sign, ds', heq, rfl | rfl, hne, hds, hn⟩
      · -- a plus sign is no digit
        have hplus : '+' ∈ ds' := by
          rw [List.nil_append] at heq
          exact heq ▸ List.mem_cons_self
        exact absurd (hds '+' hplus) (by decide)
      · cases heq
        exact ⟨hne, hds, hn⟩
  · rw [h, hread]
    constructor
    · exact fun h => ⟨[], _, rfl, Or.inl rfl, h⟩
    · rintro ⟨sign, ds, heq, rfl | rfl, h⟩
      · rw [heq]
        exact h
      · exact absurd heq (hcs ds)

/-! ## Reading -/

/-- A setting: its name, what its text is expected to be, and which texts are valid. -/
structure Field where
  key : String
  expected : String
  Valid : String → Prop

/-- The settings, in their order. -/
def fields : List Field :=
  [⟨logUncaughtKey, "a boolean", fun raw => ∃ b, FlagText raw b⟩,
   ⟨expandingBufferInitialKey, "a non-negative integer", fun raw => ∃ n, SizeText raw n⟩,
   ⟨queueWarnThresholdKey, "a non-negative integer", fun raw => ∃ n, SizeText raw n⟩]

/-- The text of a setting is missing, or it is valid. -/
def Field.Fits (f : Field) (lookup : String → Option String) : Prop :=
  ∀ raw, lookup f.key = some raw → f.Valid raw

/-- What the text under a name denotes; the default if there is none. -/
def Given {α : Type} (lookup : String → Option String) (key : String)
    (Denotes : String → α → Prop) (default v : α) : Prop :=
  match lookup key with
  | none => v = default
  | some raw => Denotes raw v

/-- The settings that the texts denote. -/
structure Denoted (lookup : String → Option String) (s : Settings) : Prop where
  logUncaught : Given lookup logUncaughtKey FlagText true s.logUncaught
  expandingBufferInitial :
    Given lookup expandingBufferInitialKey SizeText 10 s.expandingBufferInitial
  queueWarnThreshold : Given lookup queueWarnThresholdKey SizeText 1000 s.queueWarnThreshold

/-- A fault of the settings: the first text that is not valid, as it was given. -/
def FirstFault (lookup : String → Option String) (e : SettingsFault) : Prop :=
  ∃ before f after, fields = before ++ f :: after ∧ (∀ g ∈ before, g.Fits lookup) ∧
    lookup f.key = some e.raw ∧ ¬ f.Valid e.raw ∧ e.key = f.key ∧ e.expected = f.expected

section

variable {α : Type} {lookup : String → Option String} {key expected : String}
  {parse : String → Option α} {Denotes : String → α → Prop} {default v : α} {e : SettingsFault}

theorem read_eq_ok (hp : ∀ raw v, parse raw = some v ↔ Denotes raw v) :
    read lookup key expected parse default = .ok v ↔ Given lookup key Denotes default v := by
  unfold read Given
  cases lookup key with
  | none => simp [eq_comm]
  | some raw =>
    simp only [← hp]
    cases parse raw <;> simp

theorem read_eq_error (hp : ∀ raw v, parse raw = some v ↔ Denotes raw v) :
    read lookup key expected parse default = .error e ↔
      lookup key = some e.raw ∧ (¬ ∃ v, Denotes e.raw v) ∧ e.key = key ∧ e.expected = expected := by
  simp only [← hp, ← Option.isSome_iff_exists, Option.not_isSome_iff_eq_none]
  unfold read
  cases hl : lookup key with
  | none => simp
  | some raw =>
    cases hraw : parse raw with
    | none =>
      simp only [hraw, Except.error.injEq, Option.some.injEq]
      constructor
      · rintro rfl
        exact ⟨rfl, hraw, rfl, rfl⟩
      · rintro ⟨rfl, -, rfl, rfl⟩
        rfl
    | some v =>
      simp only [hraw, reduceCtorEq, Option.some.injEq, false_iff]
      rintro ⟨rfl, hnone, -⟩
      rw [hraw] at hnone
      cases hnone

theorem Given.fits (h : Given lookup key Denotes default v) :
    (⟨key, expected, fun raw => ∃ v, Denotes raw v⟩ : Field).Fits lookup := by
  intro raw hraw
  simp only at hraw
  rw [Given, hraw] at h
  exact ⟨v, h⟩

end

section

variable {lookup : String → Option String} {s : Settings} {e e' : SettingsFault}

/-- The three settings are read one after the other, and the first fault decides. -/
theorem ofLookup_eq (lookup : String → Option String) : ofLookup lookup =
    match read lookup logUncaughtKey "a boolean" flag? true with
    | .error e => .error e
    | .ok flag =>
      match read lookup expandingBufferInitialKey "a non-negative integer" size? 10 with
      | .error e => .error e
      | .ok buffer =>
        match read lookup queueWarnThresholdKey "a non-negative integer" size? 1000 with
        | .error e => .error e
        | .ok threshold => .ok ⟨flag, buffer, threshold⟩ := by
  simp only [ofLookup, bind, Except.bind, pure, Except.pure]
  cases read lookup logUncaughtKey "a boolean" flag? true with
  | error e => rfl
  | ok flag =>
    cases read lookup expandingBufferInitialKey "a non-negative integer" size? 10 with
    | error e => rfl
    | ok buffer => cases read lookup queueWarnThresholdKey "a non-negative integer" size? 1000 <;> rfl

theorem Denoted.fits (h : Denoted lookup s) : ∀ f ∈ fields, f.Fits lookup :=
  List.forall_mem_cons.2 ⟨h.logUncaught.fits, List.forall_mem_cons.2
    ⟨h.expandingBufferInitial.fits, List.forall_mem_singleton.2 h.queueWarnThreshold.fits⟩⟩

/-- Either the settings are what the texts denote, or the first text that is not valid decides. -/
theorem ofLookup_cases (lookup : String → Option String) :
    (∃ s, ofLookup lookup = .ok s ∧ Denoted lookup s) ∨
      ∃ e, ofLookup lookup = .error e ∧ FirstFault lookup e := by
  have hflag : ∀ raw b, flag? raw = some b ↔ FlagText raw b := fun _ _ => flag?_eq_some
  have hsize : ∀ raw n, size? raw = some n ↔ SizeText raw n := fun _ _ => size?_eq_some
  rw [ofLookup_eq]
  cases h₁ : read lookup logUncaughtKey "a boolean" flag? true with
  | error e =>
    obtain ⟨hraw, hbad, hkey, hexp⟩ := (read_eq_error hflag).1 h₁
    exact Or.inr ⟨e, rfl, [], _, _, rfl, nofun, hraw, hbad, hkey, hexp⟩
  | ok flag =>
    have hg₁ := (read_eq_ok hflag).1 h₁
    cases h₂ : read lookup expandingBufferInitialKey "a non-negative integer" size? 10 with
    | error e =>
      obtain ⟨hraw, hbad, hkey, hexp⟩ := (read_eq_error hsize).1 h₂
      refine Or.inr ⟨e, rfl, [_], _, _, rfl, ?_, hraw, hbad, hkey, hexp⟩
      exact List.forall_mem_singleton.2 hg₁.fits
    | ok buffer =>
      have hg₂ := (read_eq_ok hsize).1 h₂
      cases h₃ : read lookup queueWarnThresholdKey "a non-negative integer" size? 1000 with
      | error e =>
        obtain ⟨hraw, hbad, hkey, hexp⟩ := (read_eq_error hsize).1 h₃
        refine Or.inr ⟨e, rfl, [_, _], _, _, rfl, ?_, hraw, hbad, hkey, hexp⟩
        exact List.forall_mem_cons.2 ⟨hg₁.fits, List.forall_mem_singleton.2 hg₂.fits⟩
      | ok threshold => exact Or.inl ⟨_, rfl, hg₁, hg₂, (read_eq_ok hsize).1 h₃⟩

theorem FirstFault.not_fits (h : FirstFault lookup e) : ∃ f ∈ fields, ¬ f.Fits lookup := by
  obtain ⟨before, f, after, hfields, -, hraw, hbad, -, -⟩ := h
  exact ⟨f, hfields ▸ List.mem_append_right _ List.mem_cons_self, fun hfits => hbad (hfits _ hraw)⟩

theorem FirstFault.unique (h : FirstFault lookup e) (h' : FirstFault lookup e') : e = e' := by
  obtain ⟨before, f, after, hfields, hfits, hraw, hbad, hkey, hexp⟩ := h
  obtain ⟨before', f', after', hfields', hfits', hraw', hbad', hkey', hexp'⟩ := h'
  have hf : ¬ f.Fits lookup := fun h => hbad (h _ hraw)
  have hf' : ¬ f'.Fits lookup := fun h => hbad' (h _ hraw')
  have heq : f = f' := by
    rcases List.append_eq_append_iff.1 (hfields.symm.trans hfields') with
      ⟨mid, rfl, hmid⟩ | ⟨mid, rfl, hmid⟩
    · cases mid with
      | nil => exact (List.cons.inj hmid).1
      | cons g mid =>
        obtain rfl := (List.cons.inj hmid).1
        exact absurd (hfits' f (by simp)) hf
    · cases mid with
      | nil => exact (List.cons.inj hmid).1.symm
      | cons g mid =>
        obtain rfl := (List.cons.inj hmid).1
        exact absurd (hfits f' (by simp)) hf'
  subst heq
  obtain ⟨key, expected, raw⟩ := e
  obtain ⟨key', expected', raw'⟩ := e'
  simp only at hraw hraw' hkey hkey' hexp hexp'
  rw [hraw] at hraw'
  cases hraw'
  rw [hkey, hkey', hexp, hexp']

theorem Given.unique {α : Type} {key : String} {Denotes : String → α → Prop} {default u v : α}
    (hd : ∀ raw u v, Denotes raw u → Denotes raw v → u = v)
    (hu : Given lookup key Denotes default u) (hv : Given lookup key Denotes default v) : u = v := by
  unfold Given at hu hv
  cases hl : lookup key with
  | none =>
    rw [hl] at hu hv
    exact hu.trans hv.symm
  | some raw =>
    rw [hl] at hu hv
    exact hd raw u v hu hv

theorem Denoted.unique {s' : Settings} (h : Denoted lookup s) (h' : Denoted lookup s') : s = s' := by
  have hflag : ∀ raw a b, FlagText raw a → FlagText raw b → a = b := fun _ _ _ ha hb =>
    Option.some.inj ((flag?_eq_some.2 ha).symm.trans (flag?_eq_some.2 hb))
  have hsize : ∀ raw m n, SizeText raw m → SizeText raw n → m = n := fun _ _ _ hm hn =>
    Option.some.inj ((size?_eq_some.2 hm).symm.trans (size?_eq_some.2 hn))
  obtain ⟨flag, buffer, threshold⟩ := s
  obtain ⟨flag', buffer', threshold'⟩ := s'
  obtain rfl : flag = flag' := h.logUncaught.unique hflag h'.logUncaught
  obtain rfl : buffer = buffer' := h.expandingBufferInitial.unique hsize h'.expandingBufferInitial
  obtain rfl : threshold = threshold' := h.queueWarnThreshold.unique hsize h'.queueWarnThreshold
  rfl

end

/-! ## Writing -/

/-- The text under a name is what the summary of some settings says under it, between blanks. -/
def Echoes (lookup : String → Option String) (s : Settings) (key : String) : Prop :=
  ∃ before text after, "  " ++ key ++ ": " ++ text ∈ s.summary ∧
    (∀ c ∈ before.toList, isBlank c = true) ∧ (∀ c ∈ after.toList, isBlank c = true) ∧
      lookup key = some (before ++ text ++ after)

/-- A line of the summary shows its name and its text. -/
theorem line_inj {key key' text text' : String} (hk : ':' ∉ key.toList) (hk' : ':' ∉ key'.toList)
    (h : "  " ++ key ++ ": " ++ text = "  " ++ key' ++ ": " ++ text') : key = key' ∧ text = text' := by
  have hchars : key.toList ++ ':' :: ' ' :: text.toList =
      key'.toList ++ ':' :: ' ' :: text'.toList := by
    simpa using congrArg String.toList h
  rcases List.append_eq_append_iff.1 hchars with ⟨mid, hkey, hmid⟩ | ⟨mid, hkey, hmid⟩
  · cases mid with
    | nil =>
      rw [List.append_nil, String.toList_inj] at hkey
      exact ⟨hkey.symm, String.toList_inj.1 (List.cons.inj (List.cons.inj hmid).2).2⟩
    | cons c mid =>
      obtain rfl := (List.cons.inj hmid).1
      exact absurd (by simp [hkey]) hk'
  · cases mid with
    | nil =>
      rw [List.append_nil, String.toList_inj] at hkey
      exact ⟨hkey, (String.toList_inj.1 (List.cons.inj (List.cons.inj hmid).2).2).symm⟩
    | cons c mid =>
      obtain rfl := (List.cons.inj hmid).1
      exact absurd (by simp [hkey]) hk

/-- What the summary says under a name. -/
theorem mem_toPairs_of_line {s : Settings} {key text : String} (hk : ':' ∉ key.toList)
    (h : "  " ++ key ++ ": " ++ text ∈ s.summary) : (key, text) ∈ s.toPairs := by
  have hkeys : ∀ p ∈ s.toPairs, ':' ∉ p.1.toList := by
    simp only [toPairs, List.mem_cons, List.not_mem_nil, or_false]
    rintro p (rfl | rfl | rfl)
    · exact (by decide : ':' ∉ logUncaughtKey.toList)
    · exact (by decide : ':' ∉ expandingBufferInitialKey.toList)
    · exact (by decide : ':' ∉ queueWarnThresholdKey.toList)
  rcases List.mem_cons.1 h with h | h
  · have hchars := congrArg String.toList h
    simp at hchars
  · obtain ⟨p, hp, hline⟩ := List.mem_map.1 h
    obtain ⟨rfl, rfl⟩ := line_inj (hkeys p hp) hk hline
    exact hp

theorem flagText_showBool {before after : String} (hb : ∀ c ∈ before.toList, isBlank c = true)
    (ha : ∀ c ∈ after.toList, isBlank c = true) (b : Bool) :
    FlagText (before ++ showBool b ++ after) b := by
  refine ⟨(showBool b).toList, ?_, showBool b, ?_, ?_⟩
  · rw [String.toList_append, String.toList_append]
    have hcore : ((showBool b).toList.all fun c => !isBlank c) = true := by cases b <;> decide
    exact trims_between hb ha fun c hc => by simpa using List.all_eq_true.1 hcore c hc
  · cases b <;> decide
  · rw [forall₂_lowers]
    cases b <;> decide

theorem not_isBlank_of_digit {c : Char} (hc : '0' ≤ c ∧ c ≤ '9') : isBlank c = false := by
  have hge : 48 ≤ c.toNat := hc.1
  have hle : c.toNat ≤ 57 := hc.2
  simp only [isBlank, Bool.or_eq_false_iff, Bool.and_eq_false_iff, decide_eq_false_iff_not,
    beq_eq_false_iff_ne, ne_eq]
  omega

theorem sizeText_toString {before after : String} (hb : ∀ c ∈ before.toList, isBlank c = true)
    (ha : ∀ c ∈ after.toList, isBlank c = true) {n : Nat} (hn : n < 2 ^ 64) :
    SizeText (before ++ toString n ++ after) n := by
  have hchars : (toString n).toList = Nat.toDigits 10 n := by
    rw [Nat.toString_eq_repr, Nat.toList_repr]
  have hdigit : ∀ d ∈ Nat.toDigits 10 n, '0' ≤ d ∧ d ≤ '9' := fun d hd =>
    isDigit_iff.1 (Nat.isDigit_of_mem_toDigits (by decide) (by decide) hd)
  refine ⟨[], Nat.toDigits 10 n, ?_, Or.inl rfl, Nat.toDigits_ne_nil, hdigit, ?_, hn⟩
  · rw [List.nil_append, String.toList_append, String.toList_append, hchars]
    exact trims_between hb ha fun c hc => not_isBlank_of_digit (hdigit c hc)
  · have h : Nat.ofDigitChars 10 (Nat.toDigits 10 n) 0 = n := Nat.ofDigitChars_toDigits (by decide) (by decide)
    rw [← foldl_eq_placeValue]
    rw [Nat.ofDigitChars_eq_foldl] at h
    simpa only [Nat.mul_comm] using h

/-- The text under a name denotes what the settings have under it. -/
theorem Echoes.given {α : Type} {lookup : String → Option String} {s : Settings} {key text : String}
    {Denotes : String → α → Prop} {default v : α} (h : Echoes lookup s key) (hk : ':' ∉ key.toList)
    (htext : ∀ t, (key, t) ∈ s.toPairs → t = text)
    (hd : ∀ before after : String, (∀ c ∈ before.toList, isBlank c = true) →
      (∀ c ∈ after.toList, isBlank c = true) → Denotes (before ++ text ++ after) v) :
    Given lookup key Denotes default v := by
  obtain ⟨before, t, after, hline, hb, ha, hraw⟩ := h
  obtain rfl := htext t (mem_toPairs_of_line hk hline)
  rw [Given, hraw]
  exact hd before after hb ha

theorem denoted_of_echoes {lookup : String → Option String} {s : Settings}
    (hbuffer : s.expandingBufferInitial < 2 ^ 64) (hthreshold : s.queueWarnThreshold < 2 ^ 64)
    (h : ∀ f ∈ fields, Echoes lookup s f.key) : Denoted lookup s := by
  have hflagText : ∀ t, (logUncaughtKey, t) ∈ s.toPairs → t = showBool s.logUncaught := by
    simp [toPairs, logUncaughtKey, expandingBufferInitialKey, queueWarnThresholdKey]
  have hbufferText : ∀ t, (expandingBufferInitialKey, t) ∈ s.toPairs →
      t = toString s.expandingBufferInitial := by
    simp [toPairs, logUncaughtKey, expandingBufferInitialKey, queueWarnThresholdKey]
  have hthresholdText : ∀ t, (queueWarnThresholdKey, t) ∈ s.toPairs →
      t = toString s.queueWarnThreshold := by
    simp [toPairs, logUncaughtKey, expandingBufferInitialKey, queueWarnThresholdKey]
  obtain ⟨h₁, h₂, h₃⟩ : Echoes lookup s logUncaughtKey ∧ Echoes lookup s expandingBufferInitialKey ∧
      Echoes lookup s queueWarnThresholdKey := by
    simpa [fields] using h
  exact ⟨h₁.given (by decide) hflagText fun _ _ hb ha => flagText_showBool hb ha _,
    h₂.given (by decide) hbufferText fun _ _ hb ha => sizeText_toString hb ha hbuffer,
    h₃.given (by decide) hthresholdText fun _ _ hb ha => sizeText_toString hb ha hthreshold⟩

/--
The settings are read from any texts as follows. Reading succeeds just if every text that is given
is valid for its setting; then the settings are what the texts denote, and the default where there
is none. Otherwise the fault is about the first text that is not valid, and shows it untrimmed.
So what the summary of some settings says, with blanks around it, reads back as these settings.
-/
theorem ofLookup_spec (lookup : String → Option String) :
    ((∃ s, ofLookup lookup = .ok s) ↔ ∀ f ∈ fields, f.Fits lookup) ∧
    (∀ s, ofLookup lookup = .ok s ↔ Denoted lookup s) ∧
    (∀ e, ofLookup lookup = .error e ↔ FirstFault lookup e) ∧
    ∀ s : Settings, s.expandingBufferInitial < 2 ^ 64 → s.queueWarnThreshold < 2 ^ 64 →
      (∀ f ∈ fields, Echoes lookup s f.key) → ofLookup lookup = .ok s := by
  rcases ofLookup_cases lookup with ⟨s, h, hs⟩ | ⟨e, h, he⟩
  · have hok : ∀ s', ofLookup lookup = .ok s' ↔ Denoted lookup s' := fun s' =>
      ⟨fun h' => Except.ok.inj (h.symm.trans h') ▸ hs, fun hs' => hs.unique hs' ▸ h⟩
    refine ⟨iff_of_true ⟨s, h⟩ hs.fits, hok, fun e => iff_of_false ?_ fun he => ?_, ?_⟩
    · rw [h]
      exact nofun
    · obtain ⟨f, hf, hbad⟩ := he.not_fits
      exact hbad (hs.fits f hf)
    · exact fun s' hb ht hecho => (hok s').2 (denoted_of_echoes hb ht hecho)
  · obtain ⟨f, hf, hbad⟩ := he.not_fits
    have hnone : ∀ s', ¬ Denoted lookup s' := fun s' hs' => hbad (hs'.fits f hf)
    have hfault : ∀ s', ofLookup lookup ≠ .ok s' := by
      rw [h]
      exact fun _ => nofun
    refine ⟨iff_of_false (fun ⟨s', hs'⟩ => hfault s' hs') fun hfits => hbad (hfits f hf),
      fun s' => iff_of_false (hfault s') (hnone s'), fun e' => ?_, fun s' hb ht hecho => ?_⟩
    · exact ⟨fun h' => Except.error.inj (h.symm.trans h') ▸ he, fun he' => he.unique he' ▸ h⟩
    · exact absurd (denoted_of_echoes hb ht hecho) (hnone s')

/-- Settings with the largest sizes. -/
def atLimits : Settings where
  logUncaught := false
  expandingBufferInitial := 2 ^ 64 - 1
  queueWarnThreshold := 2 ^ 64 - 1

/-- The texts of settings, each between two blanks that differ. -/
def spaced (s : Settings) (key : String) : Option String :=
  (s.toPairs.lookup key).map fun text => "\u3000" ++ text ++ "\t"

theorem ofLookup_spec_atLimits : (∀ f ∈ fields, Echoes (spaced atLimits) atLimits f.key) ∧
    ofLookup (spaced atLimits) = .ok atLimits := by
  have hecho : ∀ f ∈ fields, Echoes (spaced atLimits) atLimits f.key := by
    have hblank : ∀ c ∈ "\u3000".toList, isBlank c = true := List.all_eq_true.1 (by decide)
    have hblank' : ∀ c ∈ "\t".toList, isBlank c = true := List.all_eq_true.1 (by decide)
    simp only [fields, List.mem_cons, List.not_mem_nil, or_false]
    rintro f (rfl | rfl | rfl)
    · exact ⟨_, _, _, List.mem_cons_of_mem _ List.mem_cons_self, hblank, hblank', rfl⟩
    · exact ⟨_, _, _, List.mem_cons_of_mem _ (List.mem_cons_of_mem _ List.mem_cons_self), hblank,
        hblank', rfl⟩
    · exact ⟨_, _, _, List.mem_cons_of_mem _ (List.mem_cons_of_mem _
        (List.mem_cons_of_mem _ List.mem_cons_self)), hblank, hblank', rfl⟩
  obtain ⟨-, -, -, hback⟩ := ofLookup_spec (spaced atLimits)
  exact ⟨hecho, hback atLimits (by decide) (by decide) hecho⟩

end Settings

end SagaMachine
