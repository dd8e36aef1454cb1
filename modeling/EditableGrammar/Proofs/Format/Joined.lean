import Mathlib.Data.Char
import Mathlib.Data.List.Permutation
import EditableGrammar.Proofs.Format.ListedRule

set_option autoImplicit false

/-!
# Listings one after the other

A listing is read line by line, and between two lines nothing is kept but the rule that goes on, if
one does (`readLine`).  Where a listing is read to its end no rule goes on, so what comes after it is
read as if it stood alone, except that its lines have greater numbers; and where a line is faulty
what comes after it is not looked at (`read_joined`).

A failure to read a listing is a fault on a line.  The number of the line is all that depends on
what stands before it (`readLines_further`).
-/

namespace EditableGrammar

/-! ## Faults on a line -/

/-- What may be wrong with a rule of a listing. -/
inductive LineFault where
  /-- it lacks its arrow or its bracket -/
  | expectedRule
  /-- it never closes its bracket -/
  | unclosedRule
  /-- its left-hand side is not one symbol between angle brackets -/
  | badLhs (found : String)
  deriving DecidableEq, Repr, Inhabited

namespace LineFault

/-- The failure of a listing whose rule on a line has a fault. -/
def onLine (line : Nat) : LineFault → Error
  | .expectedRule => .expectedRule line
  | .unclosedRule => .unclosedRule line
  | .badLhs found => .badLhs line found

/-- The class of such failures. -/
def kind : LineFault → Error.Kind
  | .expectedRule => .parse
  | .unclosedRule => .parse
  | .badLhs _ => .invalidArgument

/-- The wording of such failures up to the number of the line. -/
def heading : LineFault → String
  | .expectedRule => "Parse error: line "
  | .unclosedRule => "Parse error: line "
  | .badLhs _ => "Invalid argument type: line "

/-- The wording of such failures behind the number of the line. -/
def detail : LineFault → String
  | .expectedRule => ": expected `<symbol> ::= [...]`"
  | .unclosedRule => ": rule is missing its closing `]`"
  | .badLhs found => ": lhs must be a single <symbol>, found `" ++ found ++ "`"

theorem kind_onLine (fault : LineFault) (line : Nat) : (fault.onLine line).kind = fault.kind := by
  cases fault <;> rfl

/-- The wording of a failure names the line, and the rest of it is the same on every line. -/
theorem message_onLine (fault : LineFault) (line : Nat) :
    (fault.onLine line).message = fault.heading ++ toString line ++ fault.detail := by
  cases fault with
  | expectedRule => exact Error.message_expectedRule line
  | unclosedRule => exact Error.message_unclosedRule line
  | badLhs found =>
    dsimp only [onLine, heading, detail]
    rw [Error.message_badLhs]
    simp only [String.append_assoc]

end LineFault

namespace Listing

/-! ## Line by line -/

/-- What comes of a line: the rule that goes on after it, if one does, and the rules that end with
it, at most one. -/
def readLine (line : Nat) (begun : Option Begun) (l : List Char) :
    Except Error (Option Begun × List Rule) :=
  if isIgnored (trim l) then .ok (begun, [])
  else
    let b := Begun.extend begun line (trim l)
    if (trim l).getLast? = some ']' then (readRule b.line b.text).map fun r => (none, [r])
    else if b.arrow then .ok (some b, [])
    else .error (.expectedRule b.line)

theorem map_nil_append (rules : Except Error (List Rule)) : rules.map ([] ++ ·) = rules := by
  cases rules <;> rfl

/-- Reading some lines is reading the first one and going on from there. -/
theorem readLines_cons (n : Nat) (begun : Option Begun) (l : List Char)
    (lines : List (List Char)) :
    readLines n begun (l :: lines) =
      match readLine n begun l with
      | .error e => .error e
      | .ok (next, ended) => (readLines (n + 1) next lines).map (ended ++ ·) := by
  rw [readLines, readLine]
  by_cases hidle : isIgnored (trim l) = true
  · rw [if_pos hidle, if_pos hidle]
    exact (map_nil_append _).symm
  · rw [if_neg hidle, if_neg hidle]
    dsimp only
    by_cases hclosed : (trim l).getLast? = some ']'
    · rw [if_pos hclosed, if_pos hclosed]
      cases readRule (Begun.extend begun n (trim l)).line (Begun.extend begun n (trim l)).text with
      | error e => rfl
      | ok r =>
        dsimp only [Except.map]
        cases readLines (n + 1) none lines <;> rfl
    · rw [if_neg hclosed, if_neg hclosed]
      by_cases harrow : (Begun.extend begun n (trim l)).arrow = true
      · rw [if_pos harrow, if_pos harrow]
        exact (map_nil_append _).symm
      · rw [if_neg harrow, if_neg harrow]

variable {n : Nat} {begun : Option Begun} {ls : List (List Char)}

/-- Lines that are read to their end leave no rule begun, so more lines are read as if they stood
alone, further down. -/
theorem readLines_append_of_ok {rules : List Rule} (h : readLines n begun ls = .ok rules)
    (more : List (List Char)) :
    readLines n begun (ls ++ more) =
      (readLines (n + ls.length) none more).map (rules ++ ·) := by
  induction ls generalizing n begun rules with
  | nil =>
    cases begun with
    | some b => cases h
    | none =>
      cases h
      cases hmore : readLines n none more <;> simp [hmore, Except.map]
  | cons l ls ih =>
    rw [readLines_cons] at h
    rw [List.cons_append, readLines_cons]
    cases hline : readLine n begun l with
    | error e =>
      rw [hline] at h
      cases h
    | ok outcome =>
      obtain ⟨next, ended⟩ := outcome
      rw [hline] at h
      dsimp only at h ⊢
      cases hrest : readLines (n + 1) next ls with
      | error e =>
        rw [hrest] at h
        cases h
      | ok rest =>
        rw [hrest] at h
        cases h
        rw [ih hrest, List.length_cons, Nat.add_assoc, Nat.add_comm 1]
        cases readLines (n + (ls.length + 1)) none more <;> simp [Except.map]

/-- Behind a faulty line nothing is looked at. -/
theorem readLines_append_of_error {e : Error} (h : readLines n begun ls = .error e)
    (hclosed : ∀ m, e ≠ .unclosedRule m) (more : List (List Char)) :
    readLines n begun (ls ++ more) = .error e := by
  induction ls generalizing n begun with
  | nil =>
    cases begun with
    | none => cases h
    | some b =>
      cases h
      exact absurd rfl (hclosed b.line)
  | cons l ls ih =>
    rw [readLines_cons] at h
    rw [List.cons_append, readLines_cons]
    cases hline : readLine n begun l with
    | error e' =>
      rw [hline] at h
      exact h
    | ok outcome =>
      obtain ⟨next, ended⟩ := outcome
      rw [hline] at h
      dsimp only at h ⊢
      cases hrest : readLines (n + 1) next ls with
      | ok rest =>
        rw [hrest] at h
        cases h
      | error e' =>
        rw [hrest] at h
        cases h
        rw [ih hrest]
        rfl

/-! ## Further down -/

/-- The rule that goes on, with its lines `k` further down. -/
def Begun.further (k : Nat) (b : Begun) : Begun := { b with line := b.line + k }

theorem Begun.extend_further (k n : Nat) (begun : Option Begun) (part : List Char) :
    Begun.extend (begun.map (Begun.further k)) (n + k) part =
      (Begun.extend begun n part).further k := by
  cases begun <;> rfl

/-- The text of a rule is read alike on every line. -/
theorem readRule_onLine (text : List Char) :
    (∃ r, ∀ n, readRule n text = .ok r) ∨
      ∃ fault : LineFault, ∀ n, readRule n text = .error (fault.onLine n) := by
  unfold readRule
  cases splitAtArrow text with
  | none => exact .inr ⟨.expectedRule, fun n => rfl⟩
  | some parts =>
    obtain ⟨before, inside⟩ := parts
    dsimp only
    cases lhsName? (trim before) with
    | none => exact .inr ⟨.badLhs (String.ofList (trim before)), fun n => rfl⟩
    | some name => exact .inl ⟨_, fun n => rfl⟩

/-- What comes of a line further down differs in the line numbers only. -/
theorem readLine_further (k n : Nat) (begun : Option Begun) (l : List Char) :
    (∃ next ended, readLine n begun l = .ok (next, ended) ∧
        readLine (n + k) (begun.map (Begun.further k)) l =
          .ok (next.map (Begun.further k), ended)) ∨
      ∃ (fault : LineFault) (m : Nat), readLine n begun l = .error (fault.onLine m) ∧
        readLine (n + k) (begun.map (Begun.further k)) l = .error (fault.onLine (m + k)) := by
  unfold readLine
  rw [Begun.extend_further]
  by_cases hidle : isIgnored (trim l) = true
  · exact .inl ⟨begun, [], if_pos hidle, if_pos hidle⟩
  · rw [if_neg hidle, if_neg hidle]
    dsimp only
    by_cases hclosed : (trim l).getLast? = some ']'
    · rw [if_pos hclosed, if_pos hclosed]
      rcases readRule_onLine (Begun.extend begun n (trim l)).text with ⟨r, hr⟩ | ⟨fault, hfault⟩
      · exact .inl ⟨none, [r], by rw [hr]; rfl, congrArg (Except.map _) (hr _)⟩
      · exact .inr ⟨fault, _, by rw [hfault]; rfl, congrArg (Except.map _) (hfault _)⟩
    · rw [if_neg hclosed, if_neg hclosed]
      by_cases harrow : (Begun.extend begun n (trim l)).arrow = true
      · exact .inl ⟨some (Begun.extend begun n (trim l)), [], if_pos harrow, if_pos harrow⟩
      · exact .inr ⟨.expectedRule, _, if_neg harrow, if_neg harrow⟩

/-- Lines are read alike wherever they stand, but for the line that a failure names. -/
theorem readLines_further (k n : Nat) (begun : Option Begun) (ls : List (List Char)) :
    (∃ rules, readLines n begun ls = .ok rules ∧
        readLines (n + k) (begun.map (Begun.further k)) ls = .ok rules) ∨
      ∃ (fault : LineFault) (m : Nat), readLines n begun ls = .error (fault.onLine m) ∧
        readLines (n + k) (begun.map (Begun.further k)) ls = .error (fault.onLine (m + k)) := by
  induction ls generalizing n begun with
  | nil =>
    cases begun with
    | none => exact .inl ⟨[], rfl, rfl⟩
    | some b => exact .inr ⟨.unclosedRule, b.line, rfl, rfl⟩
  | cons l ls ih =>
    rw [readLines_cons, readLines_cons]
    rcases readLine_further k n begun l with ⟨next, ended, hline, hline'⟩ | ⟨fault, m, hline, hline'⟩
    · rw [hline, hline', Nat.add_right_comm]
      dsimp only
      rcases ih (n + 1) next with ⟨rules, hrest, hrest'⟩ | ⟨fault, m, hrest, hrest'⟩
      · exact .inl ⟨ended ++ rules, by rw [hrest]; rfl, by rw [hrest']; rfl⟩
      · exact .inr ⟨fault, m, by rw [hrest]; rfl, by rw [hrest']; rfl⟩
    · exact .inr ⟨fault, m, by rw [hline], by rw [hline']⟩

/-! ## Two listings -/

/-- There is one line more than there are line feeds. -/
theorem length_lines (cs : List Char) : (cs.splitOn '\n').length = cs.count '\n' + 1 := by
  induction cs with
  | nil => rfl
  | cons c cs ih =>
    rw [List.splitOn_cons_eq_if_modifyHead, List.count_cons]
    split
    next => rw [List.length_cons, ih]
    next => rw [List.length_modifyHead, ih, Nat.add_zero]

theorem lines_joined (c₁ c₂ : String) :
    (c₁ ++ "\n" ++ c₂).toList.splitOn '\n' =
      c₁.toList.splitOn '\n' ++ c₂.toList.splitOn '\n' := by
  have hjoined : (c₁ ++ "\n" ++ c₂).toList = c₁.toList ++ '\n' :: c₂.toList := by simp
  rw [hjoined, List.splitOn_append_cons_self]

/-- Rules may be left out before or after the repetitions are. -/
theorem firstPlaces_filter (p : Rule → Bool) (rules : List Rule) :
    Rule.firstPlaces (rules.filter p) = (Rule.firstPlaces rules).filter p := by
  simp only [Rule.firstPlaces_eq_eraseDups]
  induction hlen : rules.length using Nat.strongRecOn generalizing rules with
  | _ len ih =>
    subst hlen
    cases rules with
    | nil => rfl
    | cons r rules =>
      -- what stands behind `r`, without the repetitions of `r`
      have hrest := ih _ (Nat.lt_succ_of_le (List.length_filter_le (fun b => !b == r) rules)) _ rfl
      rw [List.filter_filter] at hrest
      rw [List.eraseDups_cons, List.filter_cons, List.filter_cons, ← hrest]
      split
      next hr =>
        rw [List.eraseDups_cons, List.filter_filter]
        simp only [Bool.and_comm]
      next hr =>
        congr 1
        refine List.filter_congr fun b _ => ?_
        by_cases hb : b = r
        · subst hb
          simp [hr]
        · simp [hb]

/-- The rules of two lists, each at its first place only. -/
theorem firstPlaces_append (rules more : List Rule) :
    Rule.firstPlaces (rules ++ more) =
      Rule.firstPlaces rules ++
        (Rule.firstPlaces more).filter (· ∉ Rule.firstPlaces rules) := by
  rw [← firstPlaces_filter]
  simp only [Rule.firstPlaces_eq_eraseDups, List.eraseDups_append, List.removeAll,
    List.mem_eraseDups]
  congr 2
  refine List.filter_congr fun r _ => ?_
  simp

theorem read_eq_ok_iff {text : String} {rules : List Rule} :
    read text = .ok rules ↔
      ∃ met, readLines 1 none (text.toList.splitOn '\n') = .ok met ∧
        Rule.firstPlaces met = rules := by
  unfold read
  split
  next e h => simp [h]
  next met h => simp [h]

theorem read_eq_error_iff {text : String} {e : Error} :
    read text = .error e ↔ readLines 1 none (text.toList.splitOn '\n') = .error e := by
  unfold read
  split
  next e h => simp [h]
  next met h => simp [h]

variable {c₁ c₂ : String}

/-- The lines of the second listing are read as if they stood alone, further down. -/
theorem readLines_joined {met : List Rule}
    (h : readLines 1 none (c₁.toList.splitOn '\n') = .ok met) :
    readLines 1 none ((c₁ ++ "\n" ++ c₂).toList.splitOn '\n') =
      (readLines (1 + (c₁.toList.count '\n' + 1)) none (c₂.toList.splitOn '\n')).map
        (met ++ ·) := by
  rw [lines_joined, readLines_append_of_ok h, length_lines]

theorem read_joined_of_ok {r₁ r₂ : List Rule} (h₁ : read c₁ = .ok r₁) (h₂ : read c₂ = .ok r₂) :
    read (c₁ ++ "\n" ++ c₂) = .ok (r₁ ++ r₂.filter (· ∉ r₁)) := by
  obtain ⟨met, hmet, rfl⟩ := read_eq_ok_iff.1 h₁
  obtain ⟨more, hmore, rfl⟩ := read_eq_ok_iff.1 h₂
  rcases readLines_further (c₁.toList.count '\n' + 1) 1 none (c₂.toList.splitOn '\n') with
    ⟨rules, hrules, hfurther⟩ | ⟨fault, n, hfault, -⟩
  · cases hrules.symm.trans hmore
    refine read_eq_ok_iff.2 ⟨_, ?_, firstPlaces_append met _⟩
    rw [readLines_joined hmet]
    exact congrArg (Except.map _) hfurther
  · cases hfault.symm.trans hmore

theorem read_joined_of_error_right {r₁ : List Rule} {e : Error} (h₁ : read c₁ = .ok r₁)
    (h₂ : read c₂ = .error e) :
    ∃ (fault : LineFault) (n : Nat), e = fault.onLine n ∧
      read (c₁ ++ "\n" ++ c₂) = .error (fault.onLine (n + 1 + c₁.toList.count '\n')) := by
  obtain ⟨met, hmet, -⟩ := read_eq_ok_iff.1 h₁
  rw [read_eq_error_iff] at h₂
  rcases readLines_further (c₁.toList.count '\n' + 1) 1 none (c₂.toList.splitOn '\n') with
    ⟨rules, hrules, -⟩ | ⟨fault, n, hfault, hfurther⟩
  · cases hrules.symm.trans h₂
  · cases hfault.symm.trans h₂
    refine ⟨fault, n, rfl, read_eq_error_iff.2 ?_⟩
    rw [readLines_joined hmet, Nat.add_assoc n, Nat.add_comm 1 (c₁.toList.count _)]
    exact congrArg (Except.map _) hfurther

theorem read_joined_of_error_left {e : Error} (h₁ : read c₁ = .error e)
    (hclosed : ∀ n, e ≠ .unclosedRule n) : read (c₁ ++ "\n" ++ c₂) = .error e := by
  rw [read_eq_error_iff] at h₁ ⊢
  rw [lines_joined]
  exact readLines_append_of_error h₁ hclosed _

/-- Two listings, one behind the other on a line of its own.  Where both are read, the rules of the
first come first, and then those rules of the second that the first lacks.  Where the first is read
and the second has a fault, that fault is found on the line where it now stands.  Where the first
has a fault, other than a rule that it never closes, the fault is found whatever the second is. -/
theorem read_joined (c₁ c₂ : String) :
    (∀ r₁ r₂, read c₁ = .ok r₁ → read c₂ = .ok r₂ →
      read (c₁ ++ "\n" ++ c₂) = .ok (r₁ ++ r₂.filter (· ∉ r₁))) ∧
    (∀ r₁ e, read c₁ = .ok r₁ → read c₂ = .error e →
      ∃ (fault : LineFault) (n : Nat) (e' : Error),
        e = fault.onLine n ∧
        e.message = fault.heading ++ toString n ++ fault.detail ∧
        read (c₁ ++ "\n" ++ c₂) = .error e' ∧
        e' = fault.onLine (n + 1 + c₁.toList.count '\n') ∧
        e'.message = fault.heading ++ toString (n + 1 + c₁.toList.count '\n') ++ fault.detail ∧
        e'.kind = e.kind) ∧
    (∀ e, read c₁ = .error e → (∀ n, e ≠ .unclosedRule n) →
      read (c₁ ++ "\n" ++ c₂) = .error e) := by
  refine ⟨fun r₁ r₂ => read_joined_of_ok, ?_, fun e => read_joined_of_error_left⟩
  intro r₁ e h₁ h₂
  obtain ⟨fault, n, rfl, hjoined⟩ := read_joined_of_error_right h₁ h₂
  refine ⟨fault, n, _, rfl, fault.message_onLine n, hjoined, rfl, fault.message_onLine _, ?_⟩
  rw [LineFault.kind_onLine, LineFault.kind_onLine]

/-- A listing of two rules, on five lines. -/
def pets : String := "# pets\r\n<s> ::= ['a', <t>]\r\n<t> ::= [\n b ]\n"

/-- A listing whose second line is faulty. -/
def unnamed : String := "<t> ::= []\nt s ::= [a]"

/-- One of the two rules listed behind `pets` is in it, spelled otherwise.  Behind `pets` the fault
of `unnamed` is on the seventh line, and with something behind `unnamed` it is where it was. -/
theorem read_joined_pets :
    read (pets ++ "\n" ++ "<t> ::= [\"b\"]\n<t> ::= []") =
      .ok [⟨"s", ["a", "t"]⟩, ⟨"t", ["b"]⟩, ⟨"t", []⟩] ∧
    (∃ (fault : LineFault) (n : Nat) (e' : Error),
      Error.badLhs 2 "t s" = fault.onLine n ∧
      (Error.badLhs 2 "t s").message = fault.heading ++ toString n ++ fault.detail ∧
      read (pets ++ "\n" ++ unnamed) = .error e' ∧
      e' = fault.onLine (n + 1 + 4) ∧
      e'.message = fault.heading ++ toString (n + 1 + 4) ++ fault.detail ∧
      e'.kind = (Error.badLhs 2 "t s").kind) ∧
    read (unnamed ++ "\n" ++ "<t> ::= [") = .error (.badLhs 2 "t s") := by
  have hpets : read pets = .ok [⟨"s", ["a", "t"]⟩, ⟨"t", ["b"]⟩] := by cbv
  have hunnamed : read unnamed = .error (.badLhs 2 "t s") := by cbv
  refine ⟨?both, ?second, ?first⟩
  case both => exact (read_joined pets _).1 _ [⟨"t", ["b"]⟩, ⟨"t", []⟩] hpets (by cbv)
  case second => exact (read_joined pets unnamed).2.1 _ _ hpets hunnamed
  case first => exact (read_joined unnamed _).2.2 _ hunnamed fun n h => by cases h

end Listing

end EditableGrammar
