import LoxMachine.Command
import Mathlib.Tactic.Common

/-!
# Flags on a command line

A flag without a value may stand anywhere, except between a flag and the value that is a word of
its own; and a flag may be joined to its value.  Both follow from how the words are scanned: words
that are scanned to their end leave a command and the plain words, and the rest is scanned from
there.
-/

namespace LoxMachine

namespace Options

variable {options : Options} {field other : Field} {value : Bool}

theorem get_set (options : Options) (field : Field) (value : Bool) :
    (options.set field value).get field = value := by
  cases field <;> rfl

theorem get_set_of_ne (h : other ≠ field) :
    (options.set field value).get other = options.get other := by
  cases field <;> cases other <;> first | rfl | exact absurd rfl h

theorem set_comm (options : Options) (field other : Field) (value : Bool) :
    (options.set field value).set other value = (options.set other value).set field value := by
  cases field <;> cases other <;> rfl

end Options

theorem Bytes.stripStart?_append (start text : Bytes) :
    stripStart? start (start ++ text) = some text := by
  induction start with
  | nil => rfl
  | cons b start ih => rw [List.cons_append, stripStart?, if_pos rfl, ih]

namespace Command

variable {c : Command} {s : Switch} {setting : Setting} {word value : Bytes}
  {words pre post rest : List Bytes}

/-! ## Words -/

/-- The flags without a value, and what each of them turns on. -/
def Switch.flags : List (Bytes × Switch) :=
  [(utf8 "-v", .verbose), (utf8 "--verbose", .verbose),
    (utf8 "--print-tokens", .option .printTokens),
    (utf8 "--print-tree", .option .printTree),
    (utf8 "--print-locals", .option .printLocals),
    (utf8 "--allow-under-application", .option .allowUnderApplication),
    (utf8 "--allow-over-application", .option .allowOverApplication),
    (utf8 "--disable-print", .option .disablePrint)]

theorem Switch.ofWord?_eq_some_iff : ofWord? word = some s ↔ (word, s) ∈ flags := by
  constructor
  · intro h
    unfold ofWord? at h
    split at h
    next hverbose =>
      cases h
      rcases hverbose with rfl | rfl <;> decide
    next =>
      obtain ⟨field, hfind, rfl⟩ := Option.map_eq_some_iff.mp h
      have hname := List.find?_some hfind
      rw [← of_decide_eq_true hname]
      cases field <;> decide
  · have hall : ∀ flag ∈ flags, ofWord? flag.1 = some flag.2 := by decide
    exact hall (word, s)

theorem Word.of_switch (h : (word, s) ∈ Switch.flags) : Word.of word = .switch s := by
  rw [Word.of, Switch.ofWord?_eq_some_iff.mpr h]

theorem Word.of_flag (setting : Setting) : Word.of setting.flag = .flag setting := by
  cases setting <;> decide

theorem Word.eq_of_flag (h : Word.of word = .flag setting) : word = setting.flag := by
  unfold Word.of at h
  split at h
  · cases h
  split at h
  next hword =>
    cases h
    exact hword
  split at h
  next hword =>
    cases h
    exact hword
  split at h
  · cases h
  split at h
  · cases h
  split at h <;> cases h

/-- A flag joined to its value by an equals sign. -/
theorem Word.of_joined (setting : Setting) (value : Bytes) :
    Word.of (setting.flag ++ utf8 "=" ++ value) = .setting setting value := by
  have hequals : 61 ∈ setting.flag ++ utf8 "=" ++ value :=
    List.mem_append_left _ (List.mem_append_right _ (by decide))
  have hswitch : Switch.ofWord? (setting.flag ++ utf8 "=" ++ value) = none := by
    cases h : Switch.ofWord? (setting.flag ++ utf8 "=" ++ value) with
    | none => rfl
    | some s =>
        have hplain : ∀ flag ∈ Switch.flags, 61 ∉ flag.1 := by decide
        exact absurd hequals (hplain _ (Switch.ofWord?_eq_some_iff.mp h))
  have hflag : ∀ other : Setting, setting.flag ++ utf8 "=" ++ value ≠ other.flag := by
    intro other heq
    have hplain : 61 ∉ other.flag := by cases other <;> decide
    exact hplain (heq ▸ hequals)
  rw [Word.of, hswitch]
  dsimp only
  rw [if_neg (hflag .config), if_neg (hflag .pattern)]
  cases setting with
  | config => rw [Bytes.stripStart?_append]
  | pattern =>
      have hother : Bytes.stripStart? (Setting.config.flag ++ utf8 "=")
          (Setting.pattern.flag ++ utf8 "=" ++ value) = none := rfl
      rw [hother, Bytes.stripStart?_append]

/-! ## Scanning -/

theorem scan_switch (h : Word.of word = .switch s) :
    scan c words (word :: rest) = scan (c.turnOn s) words rest := by
  rw [scan, h]

theorem scan_setting (h : Word.of word = .setting setting value) :
    scan c words (word :: rest) = scan (c.assign setting value) words rest := by
  rw [scan, h]

theorem scan_pair (h : Word.of word = .flag setting) :
    scan c words (word :: value :: rest) = scan (c.assign setting value) words rest := by
  rw [scan, h]

/-- Words behind which no flag waits for its value. -/
inductive Settled : List Bytes → Prop where
  | nil : Settled []
  | other {first : Bytes} {more : List Bytes} (h : ∀ setting : Setting, first ≠ setting.flag)
      (hmore : Settled more) : Settled (first :: more)
  | pair {value : Bytes} {more : List Bytes} (setting : Setting) (hmore : Settled more) :
      Settled (setting.flag :: value :: more)

/-- Words behind which a flag waits for its value: the place between the two. -/
def Waiting (words : List Bytes) : Prop :=
  ∃ before, Settled before ∧ ∃ setting : Setting, words = before ++ [setting.flag]

theorem settled_or_waiting : ∀ words : List Bytes, Settled words ∨ Waiting words
  | [] => .inl .nil
  | [word] => by
      by_cases h : ∃ setting : Setting, word = setting.flag
      · obtain ⟨setting, rfl⟩ := h
        exact .inr ⟨[], .nil, setting, rfl⟩
      · exact .inl (.other (not_exists.mp h) .nil)
  | word :: value :: rest => by
      by_cases h : ∃ setting : Setting, word = setting.flag
      · obtain ⟨setting, rfl⟩ := h
        rcases settled_or_waiting rest with hrest | ⟨before, hbefore, waiting, rfl⟩
        · exact .inl (.pair setting hrest)
        · exact .inr ⟨_ :: _ :: before, .pair setting hbefore, waiting, rfl⟩
      · rcases settled_or_waiting (value :: rest) with hrest | ⟨before, hbefore, waiting, heq⟩
        · exact .inl (.other (not_exists.mp h) hrest)
        · exact .inr ⟨word :: before, .other (not_exists.mp h) hbefore, waiting,
            congrArg (word :: ·) heq⟩

theorem Settled.tail (h : Settled (word :: rest))
    (hword : ∀ setting : Setting, word ≠ setting.flag) : Settled rest := by
  cases h with
  | other _ hmore => exact hmore
  | pair setting _ => exact absurd rfl (hword setting)

/-- The value that a flag has waited for. -/
theorem Settled.exists_value (h : Settled (setting.flag :: rest)) :
    ∃ value more, rest = value :: more ∧ Settled more := by
  generalize hwords : setting.flag :: rest = words at h
  cases h with
  | nil => cases hwords
  | other hother _ => exact absurd (List.cons.inj hwords).1.symm (hother setting)
  | pair _ hmore => exact ⟨_, _, (List.cons.inj hwords).2, hmore⟩

theorem Settled.not_append_flag {before : List Bytes} (h : Settled before) (setting : Setting) :
    ¬ Settled (before ++ [setting.flag]) := by
  induction h with
  | nil =>
      intro hall
      obtain ⟨_, _, heq, -⟩ := hall.exists_value
      cases heq
  | other hother _ ih => exact fun hall => ih (hall.tail hother)
  | pair _ _ ih =>
      intro hall
      obtain ⟨_, _, heq, hmore⟩ := hall.exists_value
      obtain ⟨-, rfl⟩ := List.cons.inj heq
      exact ih hmore

/-- A place is settled unless it is between a flag and its value. -/
theorem settled_iff : Settled words ↔ ¬ Waiting words := by
  constructor
  · rintro h ⟨before, hbefore, setting, rfl⟩
    exact hbefore.not_append_flag setting h
  · exact (settled_or_waiting words).resolve_right

/-- The words behind a settled place are scanned from what was found there. -/
theorem scan_append (h : Settled pre) (c : Command) (words rest : List Bytes) :
    scan c words (pre ++ rest) =
      scan c words pre >>= fun found => scan found.1 found.2.reverse rest := by
  induction h generalizing c words with
  | nil =>
      rw [List.nil_append, scan]
      exact congrArg (scan c · rest) words.reverse_reverse.symm
  | @other first pre hfirst _ ih =>
      rw [List.cons_append, scan, scan]
      cases hof : Word.of first with
      | flag setting => exact absurd (Word.eq_of_flag hof) (hfirst setting)
      | unknown => rfl
      | switch | setting | plain => exact ih _ _
  | @pair value pre setting _ ih =>
      rw [List.cons_append, List.cons_append, scan_pair (Word.of_flag setting),
        scan_pair (Word.of_flag setting)]
      exact ih _ _

theorem turnOn_comm (c : Command) (s s' : Switch) :
    (c.turnOn s).turnOn s' = (c.turnOn s').turnOn s := by
  cases s <;> cases s' <;> first
    | rfl
    | exact congrArg (fun options => { c with options }) (Options.set_comm _ _ _ _)

theorem assign_turnOn (c : Command) (s : Switch) (setting : Setting) (value : Bytes) :
    (c.turnOn s).assign setting value = (c.assign setting value).turnOn s := by
  cases s <;> cases setting <;> rfl

/-- What is turned on early is still on at the end, and nothing else depends on it. -/
theorem scan_turnOn (s : Switch) (c : Command) (words args : List Bytes) :
    scan (c.turnOn s) words args =
      (scan c words args).map fun found => (found.1.turnOn s, found.2) := by
  fun_induction scan c words args with
  | case1 c words => rw [scan, Except.map]
  | case2 c words word rest s' hof ih => rw [scan_switch hof, ← ih, turnOn_comm]
  | case3 c words word rest setting value hof ih => rw [scan_setting hof, assign_turnOn, ih]
  | case4 c words word setting hof => rw [scan, hof, Except.map]
  | case5 c words word setting hof value rest ih => rw [scan_pair hof, assign_turnOn, ih]
  | case6 c words word rest hof => rw [scan, hof, Except.map]
  | case7 c words word rest hof ih => rw [scan, hof, ← ih]

/-! ## What is asked for -/

/-- The command that the flags and the plain words make, if they go together. -/
def finish (found : Command × List Bytes) : Except Refusal Command := do
  let c ← found.1.choose found.2
  if c.pattern ≠ [] ∧ c.mode ≠ .test then throw .patternWithoutTest
  return c

theorem parse_eq (args : List Bytes) : parse args = scan {} [] args >>= finish :=
  rfl

theorem noMore_turnOn (s : Switch) (c : Command) (words : List Bytes) :
    (c.turnOn s).noMore words = (c.noMore words).map (turnOn · s) := by
  cases words <;> rfl

theorem choose_turnOn (s : Switch) (c : Command) (words : List Bytes) :
    (c.turnOn s).choose words = (c.choose words).map (turnOn · s) := by
  have hmode : ∀ mode path, { c.turnOn s with mode, path } = { c with mode, path }.turnOn s := by
    cases s <;> intros <;> rfl
  unfold choose
  split
  · cases s <;> rfl
  · split
    · split
      · rfl
      · rw [hmode, noMore_turnOn]
    · split
      · split
        · exact congrArg Except.ok (hmode _ _)
        · rw [hmode, noMore_turnOn]
      · rfl

theorem finish_turnOn (s : Switch) (c : Command) (words : List Bytes) :
    finish (c.turnOn s, words) = (finish (c, words)).map (turnOn · s) := by
  have hsame : ∀ c : Command, (c.turnOn s).pattern = c.pattern ∧ (c.turnOn s).mode = c.mode := by
    cases s <;> exact fun _ => ⟨rfl, rfl⟩
  simp only [finish, choose_turnOn]
  cases c.choose words with
  | error refusal => rfl
  | ok chosen =>
      change (if (chosen.turnOn s).pattern ≠ [] ∧ (chosen.turnOn s).mode ≠ .test then _ else _) =
        Except.map _ (if chosen.pattern ≠ [] ∧ chosen.mode ≠ .test then _ else _)
      rw [(hsame chosen).1, (hsame chosen).2]
      split <;> rfl

/-- A flag at a settled place turns on what it names, and changes nothing else. -/
theorem parse_flag (h : Settled pre) (hflag : (word, s) ∈ Switch.flags) (post : List Bytes) :
    parse (pre ++ word :: post) = (parse (pre ++ post)).map (turnOn · s) := by
  rw [parse_eq, parse_eq, scan_append h, scan_append h]
  cases scan {} [] pre with
  | error refusal => rfl
  | ok found =>
      change scan found.1 found.2.reverse (word :: post) >>= finish =
        (scan found.1 found.2.reverse post >>= finish).map (turnOn · s)
      rw [scan_switch (Word.of_switch hflag), scan_turnOn]
      cases scan found.1 found.2.reverse post with
      | error refusal => rfl
      | ok found => exact finish_turnOn s found.1 found.2

/-- A flag and its value are one word or two. -/
theorem parse_joined (h : Settled pre) (setting : Setting) (value : Bytes) (post : List Bytes) :
    parse (pre ++ setting.flag :: value :: post) =
      parse (pre ++ (setting.flag ++ utf8 "=" ++ value) :: post) := by
  rw [parse_eq, parse_eq, scan_append h, scan_append h]
  congr 2
  funext found
  rw [scan_pair (Word.of_flag setting), scan_setting (Word.of_joined setting value)]

/-- Whether a flag without a value was given. -/
def isOn (c : Command) : Switch → Bool
  | .verbose => c.verbose
  | .option field => c.options.get field

theorem isOn_turnOn (c : Command) (s : Switch) : (c.turnOn s).isOn s = true := by
  cases s with
  | verbose => rfl
  | option field => exact Options.get_set _ _ _

theorem isOn_turnOn_of_ne {other : Switch} (h : other ≠ s) :
    (c.turnOn s).isOn other = c.isOn other := by
  cases s with
  | verbose =>
      cases other with
      | verbose => exact absurd rfl h
      | option field => rfl
  | option field =>
      cases other with
      | verbose => rfl
      | option other => exact Options.get_set_of_ne fun heq => h (congrArg _ heq)

/-- Flags are independent of their place.  A flag without a value that is put anywhere, except
between a flag and its value, leaves a command line in order that is in order without it, and
turns on what it names and nothing else; where it is put makes no difference.  And a flag with a
value in the next word means the same as the two joined by an equals sign, on whatever command
line, be it refused or not. -/
theorem flags_anywhere :
    (∀ flag s, (flag, s) ∈ Switch.flags → ∀ pre post, ¬ Waiting pre →
      ∀ c, parse (pre ++ post) = .ok c → ∃ c', parse (pre ++ flag :: post) = .ok c' ∧
        c'.mode = c.mode ∧ c'.path = c.path ∧ c'.config = c.config ∧ c'.pattern = c.pattern ∧
        c'.isOn s = true ∧ ∀ other ≠ s, c'.isOn other = c.isOn other) ∧
    (∀ flag s, (flag, s) ∈ Switch.flags → ∀ pre post pre' post', ¬ Waiting pre →
      ¬ Waiting pre' → pre ++ post = pre' ++ post' →
      parse (pre ++ flag :: post) = parse (pre' ++ flag :: post')) ∧
    ∀ (setting : Setting) value pre post, ¬ Waiting pre →
      parse (pre ++ setting.flag :: value :: post) =
        parse (pre ++ (setting.flag ++ utf8 "=" ++ value) :: post) := by
  refine ⟨fun flag s hflag pre post hpre c hparse => ?_,
    fun flag s hflag pre post pre' post' hpre hpre' hsame => ?_,
    fun setting value pre post hpre => parse_joined (settled_iff.mpr hpre) _ _ _⟩
  · have hwith := parse_flag (settled_iff.mpr hpre) hflag post
    rw [hparse] at hwith
    refine ⟨c.turnOn s, hwith, ?_, ?_, ?_, ?_, isOn_turnOn c s, fun other => isOn_turnOn_of_ne⟩ <;>
      cases s <;> rfl
  · rw [parse_flag (settled_iff.mpr hpre) hflag,
      parse_flag (settled_iff.mpr hpre') hflag, hsame]

/-- A flag before and behind the words of a test run whose pattern looks like a flag. -/
theorem flags_anywhere_pattern :
    let args := [utf8 "test", utf8 "--run", utf8 "-v", utf8 "suite"]
    let tree := utf8 "--print-tree"
    ¬ Waiting [utf8 "test"] ∧
      (∃ c, parse args = .ok c ∧ c.verbose = false ∧ c.pattern = utf8 "-v") ∧
      parse (tree :: args) = parse (args ++ [tree]) ∧
      parse args = parse [utf8 "test", utf8 "--run=-v", utf8 "suite"] := by
  intro args tree
  have hplain : ∀ setting : Setting, utf8 "test" ≠ setting.flag ∧ utf8 "suite" ≠ setting.flag := by
    rintro (_ | _) <;> decide
  have htest : Settled [utf8 "test"] := .other (fun setting => (hplain setting).1) .nil
  have hargs : Settled args := .other (fun setting => (hplain setting).1)
    (.pair .pattern (.other (fun setting => (hplain setting).2) .nil))
  obtain ⟨-, hmoved, hjoined⟩ := flags_anywhere
  refine ⟨settled_iff.mp htest, ⟨_, rfl, by decide⟩, ?_, ?_⟩
  · exact hmoved tree (.option .printTree) (by decide) [] args args [] (settled_iff.mp .nil)
      (settled_iff.mp hargs) (List.append_nil args).symm
  · exact hjoined .pattern (utf8 "-v") [utf8 "test"] [utf8 "suite"] (settled_iff.mp htest)

end Command

end LoxMachine
