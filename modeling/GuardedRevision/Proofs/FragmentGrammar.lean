import GuardedRevision.Fragment
import GuardedRevision.Proofs.RefPaths
import Mathlib.Data.List.Forall2
import Mathlib.Data.List.Infix
import Mathlib.Data.List.TakeWhile

/-!
# The grammar of fragments

Which texts are fragments, and of what: a base, and after it steps, each a mark and digits. Reading accepts
just these, and reads what writing writes.
-/

namespace GuardedRevision

namespace Text

variable {mark text left right : List Char}

/-- What occurs in two texts together, and ends with a character that the second has not, is in the first. -/
theorem infix_of_append {c : Char} (hinside : mark ++ [c] <:+: left ++ right) (hnot : c ∉ right) :
    mark ++ [c] <:+: left := by
  obtain ⟨before, after, heq⟩ := hinside
  rcases List.append_eq_append_iff.mp heq with ⟨rest, rfl, _⟩ | ⟨rest, hleft, hright⟩
  · exact ⟨before, rest, rfl⟩
  · rcases List.eq_nil_or_concat rest with rfl | ⟨front, last, rfl⟩
    · exact ⟨before, [], by simpa using hleft⟩
    · have hends : before ++ mark ++ [c] = left ++ front ++ [last] := by simpa using hleft
      obtain rfl : c = last := (List.append_singleton_inj.mp hends).2
      exact absurd (by simp [hright]) hnot

end Text

namespace Step

def countOf (digits : List Char) : Nat := if digits = [] then 1 else Nat.ofDigitChars 10 digits 0

inductive WrittenAs : List Char → Step → Prop where
  | parent {digits : List Char} (digital : ∀ c ∈ digits, c.isDigit = true)
      (fits : countOf digits < UInt32.size) (counted : countOf digits ≠ 0) :
      WrittenAs ('^' :: digits) (.parent (countOf digits))
  | ancestor {digits : List Char} (digital : ∀ c ∈ digits, c.isDigit = true)
      (fits : countOf digits < UInt32.size) : WrittenAs ('~' :: digits) (.ancestor (countOf digits))

/-- The steps that can be written: numbers have 32 bits, and parents are counted from one. -/
def InRange : Step → Prop
  | .parent n => 1 ≤ n ∧ n < UInt32.size
  | .ancestor n => n < UInt32.size

instance : DecidablePred InRange
  | .parent n => inferInstanceAs (Decidable (1 ≤ n ∧ n < UInt32.size))
  | .ancestor n => inferInstanceAs (Decidable (n < UInt32.size))

variable {digits rest text : List Char} {texts : List (List Char)} {step : Step} {steps : List Step} {c : Char}

theorem ofMark?_eq_some_iff (digital : ∀ c ∈ digits, c.isDigit = true) :
    ofMark? c digits = some step ↔ WrittenAs (c :: digits) step := by
  have hcount : (if digits.isEmpty then 1 else numberOf digits) = countOf digits := by
    cases digits with
    | nil => rfl
    | cons d rest => rfl
  have hbound : bound = UInt32.size := rfl
  unfold ofMark?
  rw [hcount, hbound]
  dsimp only
  constructor
  · intro hread
    split at hread
    · cases hread
    · next hfits =>
        have hfits : countOf digits < UInt32.size := Nat.lt_of_not_le hfits
        split at hread
        · next hmark =>
            cases hread
            exact hmark ▸ .ancestor digital hfits
        · split at hread
          · next hmark =>
              split at hread
              · cases hread
              · next hcounted =>
                  cases hread
                  exact hmark ▸ .parent digital hfits hcounted
          · cases hread
  · intro written
    cases written with
    | parent _ fits counted => rw [if_neg (Nat.not_le.mpr fits), if_neg (by decide), if_pos rfl, if_neg counted]
    | ancestor _ fits => rw [if_neg (Nat.not_le.mpr fits), if_pos rfl]

theorem readTail?_append (digital : ∀ c ∈ digits, c.isDigit = true) :
    readTail? (digits ++ rest) = (readTail? rest).map fun found => (digits ++ found.1, found.2) := by
  induction digits with
  | nil => simp
  | cons c digits ih =>
      obtain ⟨hdigit, hdigits⟩ := List.forall_mem_cons.mp digital
      rw [List.cons_append, readTail?, ih hdigits]
      cases readTail? rest with
      | none => rfl
      | some found => simp [hdigit]

theorem isDigit_of_isMark (hmark : isMark c = true) : c.isDigit = false := by
  simp only [isMark, Bool.or_eq_true, beq_iff_eq] at hmark
  rcases hmark with rfl | rfl <;> decide

theorem WrittenAs.exists_mark (written : WrittenAs text step) :
    ∃ c digits, text = c :: digits ∧ isMark c = true ∧ ∀ d ∈ digits, d.isDigit = true := by
  cases written with
  | parent digital _ _ => exact ⟨_, _, rfl, rfl, digital⟩
  | ancestor digital _ => exact ⟨_, _, rfl, rfl, digital⟩

theorem WrittenAs.readTail?_append (written : WrittenAs text step) (hrest : readTail? rest = some ([], steps)) :
    readTail? (text ++ rest) = some ([], step :: steps) := by
  obtain ⟨c, digits, rfl, hmark, digital⟩ := written.exists_mark
  rw [List.cons_append, readTail?, Step.readTail?_append digital, hrest]
  simp [isDigit_of_isMark hmark, (ofMark?_eq_some_iff digital).mpr written]

/-- What is read from the right: digits that no mark has claimed yet, and steps after them. -/
theorem of_readTail? (hread : readTail? text = some (digits, steps)) :
    (∀ c ∈ digits, c.isDigit = true) ∧
      ∃ texts, text = digits ++ texts.flatten ∧ List.Forall₂ WrittenAs texts steps := by
  induction text generalizing digits steps with
  | nil =>
      cases hread
      exact ⟨by simp, [], rfl, .nil⟩
  | cons c rest ih =>
      rw [readTail?] at hread
      split at hread
      · cases hread
      · next later found hrest =>
          obtain ⟨digital, texts, rfl, written⟩ := ih hrest
          split at hread
          · next hdigit =>
              cases hread
              exact ⟨List.forall_mem_cons.mpr ⟨hdigit, digital⟩, texts, rfl, written⟩
          · obtain ⟨step, hstep, heq⟩ := Option.map_eq_some_iff.mp hread
            cases heq
            exact ⟨by simp, (c :: later) :: texts, rfl, .cons ((ofMark?_eq_some_iff digital).mp hstep) written⟩

/-- A step that cannot be read spoils whatever stands before it. -/
theorem readTail?_eq_none (digital : ∀ c ∈ digits, c.isDigit = true) (hmark : isMark c = true)
    (hlarge : UInt32.size ≤ countOf digits) (front : List Char) : readTail? (front ++ c :: digits) = none := by
  have hstep : ofMark? c digits = none := by
    cases hread : ofMark? c digits with
    | none => rfl
    | some step =>
        cases (ofMark?_eq_some_iff digital).mp hread with
        | parent _ fits _ => exact absurd fits (Nat.not_lt.mpr hlarge)
        | ancestor _ fits => exact absurd fits (Nat.not_lt.mpr hlarge)
  induction front with
  | nil =>
      have hdigits : readTail? digits = some (digits, []) := by
        simpa [readTail?] using @readTail?_append digits [] digital
      rw [List.nil_append, readTail?, hdigits]
      simp [isDigit_of_isMark hmark, hstep]
  | cons d front ih => rw [List.cons_append, readTail?, ih]

theorem readAll?_eq_some_iff_readTail? : readAll? text = some steps ↔ readTail? text = some ([], steps) := by
  unfold readAll?
  split
  · next found hread => simp [hread]
  · next hother =>
      constructor
      · intro h
        cases h
      · intro hread
        exact absurd hread (hother steps)

theorem readAll?_eq_some_iff : readAll? text = some steps ↔
    ∃ texts, text = texts.flatten ∧ List.Forall₂ WrittenAs texts steps := by
  rw [readAll?_eq_some_iff_readTail?]
  constructor
  · intro hread
    obtain ⟨_, texts, htext, written⟩ := of_readTail? hread
    exact ⟨texts, htext, written⟩
  · rintro ⟨texts, rfl, written⟩
    induction written with
    | nil => rfl
    | cons hstep _ ih => exact hstep.readTail?_append ih

/-! ### Steps as they are written -/

theorem countOf_toDigits (n : Nat) : countOf (Nat.toDigits 10 n) = n := by
  rw [countOf, if_neg Nat.toDigits_ne_nil, Nat.ofDigitChars_toDigits (by decide) (by decide)]

theorem writtenAs_text (hstep : step.InRange) : WrittenAs step.text step := by
  have digital (n : Nat) : ∀ c ∈ Nat.toDigits 10 n, c.isDigit = true :=
    fun c hc => Nat.isDigit_of_mem_toDigits (by decide) (by decide) hc
  cases step with
  | parent n =>
      have written := @WrittenAs.parent _ (digital n)
      rw [countOf_toDigits] at written
      exact written hstep.2 (Nat.one_le_iff_ne_zero.mp hstep.1)
  | ancestor n =>
      have written := @WrittenAs.ancestor _ (digital n)
      rw [countOf_toDigits] at written
      exact written hstep

theorem writtenAs_caret : WrittenAs ['^'] (.parent 1) :=
  @WrittenAs.parent [] (List.forall_mem_nil _) (by decide) (by decide)

theorem WrittenAs.mark_or_digit (written : WrittenAs text step) (hc : c ∈ text) :
    isMark c = true ∨ c.isDigit = true := by
  obtain ⟨mark, digits, rfl, hmark, digital⟩ := written.exists_mark
  rcases List.mem_cons.mp hc with rfl | hdigit
  · exact .inl hmark
  · exact .inr (digital c hdigit)

theorem mark_or_digit_of_forall₂ (written : List.Forall₂ WrittenAs texts steps) (hc : c ∈ texts.flatten) :
    isMark c = true ∨ c.isDigit = true := by
  obtain ⟨text, htext, hc⟩ := List.mem_flatten.mp hc
  obtain ⟨step, hstep⟩ : ∃ step, WrittenAs text step := by
    obtain ⟨i, hi, rfl⟩ := List.getElem_of_mem htext
    exact ⟨_, written.get hi (written.length_eq ▸ hi)⟩
  exact hstep.mark_or_digit hc

theorem head?_isMark_of_forall₂ (written : List.Forall₂ WrittenAs texts steps) :
    ∀ c ∈ texts.flatten.head?, isMark c = true := by
  cases written with
  | nil => simp
  | cons hstep _ =>
      obtain ⟨mark, digits, rfl, hmark, _⟩ := hstep.exists_mark
      simpa using hmark

end Step

namespace Fragment

structure BaseText (base : List Char) : Prop where
  nonempty : base ≠ []
  unmarked : ∀ c ∈ ['^', '~'], c ∉ base
  opens : base.head? ≠ some '/'
  closes : base.getLast? ≠ some '/'
  single : ¬ ['/', '/'] <:+: base

structure Plain (text : List Char) : Prop where
  allowed : ∀ c ∈ [':', '@', '{', '}', '!'], c ∉ text
  undotted : ¬ ['.', '.'] <:+: text

/-- What it is for a text to spell a fragment: its base, and after that its steps in order. -/
structure Spells (fragment : Fragment) (text : List Char) : Prop where
  base : BaseText fragment.base
  plain : Plain text
  written : ∃ marks, text = fragment.base ++ marks.flatten ∧ List.Forall₂ Step.WrittenAs marks fragment.steps

variable {base text marks : List Char} {fragment : Fragment} {texts : List (List Char)} {steps : List Step}

theorem isBase_eq_true_iff : isBase base = true ↔
    base ≠ [] ∧ base.head? ≠ some '/' ∧ base.getLast? ≠ some '/' ∧ ¬ ['/', '/'] <:+: base := by
  have hoccurs : (!Text.occursIn ['/', '/'] base) = true ↔ ¬ ['/', '/'] <:+: base := by
    rw [← Text.occursIn_iff (by simp)]
    simp
  simp [isBase, hoccurs, and_assoc]

theorem refused_iff :
    (text.any forbidden.contains || Text.occursIn ['.', '.'] text) = false ↔ Plain text := by
  rw [Bool.or_eq_false_iff, ← Bool.not_eq_true (Text.occursIn _ _), Text.occursIn_iff (by simp)]
  constructor
  · rintro ⟨hany, hdots⟩
    refine ⟨fun c hc hmem => ?_, hdots⟩
    have := List.any_eq_false.mp hany c hmem
    exact this (List.contains_iff_mem.mpr hc)
  · rintro ⟨hallowed, hdots⟩
    refine ⟨List.any_eq_false.mpr fun c hmem hc => ?_, hdots⟩
    exact hallowed c (List.contains_iff_mem.mp hc) hmem

theorem unmarked_iff : (∀ c ∈ ['^', '~'], c ∉ base) ↔ ∀ c ∈ base, (!Step.isMark c) = true := by
  simp only [Step.isMark, List.mem_cons, List.not_mem_nil, or_false, forall_eq_or_imp, forall_eq,
    Bool.not_eq_true', Bool.or_eq_false_iff, beq_eq_false_iff_ne]
  constructor
  · rintro ⟨hcaret, htilde⟩ c hc
    exact ⟨fun h => hcaret (h ▸ hc), fun h => htilde (h ▸ hc)⟩
  · intro h
    exact ⟨fun hc => (h _ hc).1 rfl, fun hc => (h _ hc).2 rfl⟩

theorem cut_at_mark (hbase : ∀ c ∈ base, (!Step.isMark c) = true)
    (hmarks : ∀ c ∈ marks.head?, Step.isMark c = true) :
    (base ++ marks).takeWhile (!Step.isMark ·) = base ∧ (base ++ marks).dropWhile (!Step.isMark ·) = marks := by
  rw [List.takeWhile_append_of_pos hbase, List.dropWhile_append_of_pos hbase]
  cases marks with
  | nil => simp
  | cons c rest =>
      have hmark : Step.isMark c = true := hmarks c rfl
      simp [hmark]

theorem read?_eq_some_iff : read? text = some fragment ↔ fragment.Spells text := by
  unfold read?
  split
  · next hrefused =>
      constructor
      · intro h
        cases h
      · intro hspells
        rw [refused_iff.mpr hspells.plain] at hrefused
        cases hrefused
  · next haccepted =>
      have hplain : Plain text := refused_iff.mp (Bool.not_eq_true _ ▸ haccepted)
      constructor
      · intro hread
        dsimp only at hread
        split at hread
        · next hbase =>
            obtain ⟨hnonempty, hopens, hcloses, hsingle⟩ := isBase_eq_true_iff.mp hbase
            obtain ⟨steps, hsteps, rfl⟩ := Option.map_eq_some_iff.mp hread
            obtain ⟨marks, hmarks, hwritten⟩ := Step.readAll?_eq_some_iff.mp hsteps
            have hunmarked : ∀ c ∈ ['^', '~'], c ∉ text.takeWhile (!Step.isMark ·) :=
              unmarked_iff.mpr fun c hc => List.mem_takeWhile_imp (p := (!Step.isMark ·)) hc
            exact ⟨⟨hnonempty, hunmarked, hopens, hcloses, hsingle⟩, hplain, marks,
              by rw [← hmarks, List.takeWhile_append_dropWhile], hwritten⟩
        · cases hread
      · rintro ⟨⟨hnonempty, hunmarked, hopens, hcloses, hsingle⟩, _, marks, rfl, hwritten⟩
        obtain ⟨hbase, hmarks⟩ :=
          cut_at_mark (unmarked_iff.mp hunmarked) (Step.head?_isMark_of_forall₂ hwritten)
        dsimp only
        rw [hbase, hmarks, if_pos (isBase_eq_true_iff.mpr ⟨hnonempty, hopens, hcloses, hsingle⟩),
          Step.readAll?_eq_some_iff.mpr ⟨marks, rfl, hwritten⟩, Option.map_some]

theorem nil_notMem_of_read? (hread : read? text = some fragment) : [] ∉ fragment.base.splitOn '/' := by
  obtain ⟨hnonempty, _, hopens, hcloses, hsingle⟩ := (read?_eq_some_iff.mp hread).base
  rw [← Text.occursIn_iff (by simp), Bool.not_eq_true] at hsingle
  exact RefName.nil_notMem_splitOn hnonempty hopens hcloses hsingle

theorem Plain.append_steps (hplain : Plain base) (hwritten : List.Forall₂ Step.WrittenAs texts steps) :
    Plain (base ++ texts.flatten) := by
  have hmarks := fun c (hc : c ∈ texts.flatten) => Step.mark_or_digit_of_forall₂ hwritten hc
  refine ⟨fun c hc hmem => ?_, fun hinside => ?_⟩
  · rcases List.mem_append.mp hmem with hbase | hlater
    · exact hplain.allowed c hc hbase
    · have hothers : [':', '@', '{', '}', '!'].all (fun c => !Step.isMark c && !c.isDigit) = true := by decide
      have hother := List.all_eq_true.mp hothers c hc
      rcases hmarks c hlater with hmark | hdigit
      · simp [hmark] at hother
      · simp [hdigit] at hother
  · have hdot : '.' ∉ texts.flatten := fun hdot => absurd (hmarks '.' hdot) (by decide)
    exact hplain.undotted (@Text.infix_of_append ['.'] _ _ '.' hinside hdot)

theorem read?_append (hread : read? text = some fragment) (hwritten : List.Forall₂ Step.WrittenAs texts steps) :
    read? (text ++ texts.flatten) = some ⟨fragment.base, fragment.steps ++ steps⟩ := by
  obtain ⟨hbase, hplain, marks, htext, hmarks⟩ := read?_eq_some_iff.mp hread
  refine read?_eq_some_iff.mpr
    ⟨hbase, hplain.append_steps hwritten, marks ++ texts, ?_, List.rel_append hmarks hwritten⟩
  rw [htext, List.append_assoc, List.flatten_append]

theorem read?_step (hread : read? text = some fragment) {mark : List Char} {step : Step}
    (hwritten : Step.WrittenAs mark step) :
    read? (text ++ mark) = some ⟨fragment.base, fragment.steps ++ [step]⟩ := by
  have happend := read?_append hread (.cons hwritten .nil)
  rwa [List.flatten_singleton] at happend

theorem read?_append_eq_none {c : Char} {digits : List Char} (hread : read? text = some fragment)
    (digital : ∀ c ∈ digits, c.isDigit = true) (hmark : Step.isMark c = true)
    (hlarge : UInt32.size ≤ Step.countOf digits) : read? (text ++ c :: digits) = none := by
  obtain ⟨hbase, _, marks, htext, hmarks⟩ := read?_eq_some_iff.mp hread
  have hhead : ∀ d ∈ (marks.flatten ++ c :: digits).head?, Step.isMark d = true := by
    cases hflat : marks.flatten with
    | nil => simpa using hmark
    | cons d rest =>
        have hfirst := Step.head?_isMark_of_forall₂ hmarks
        simpa [hflat] using hfirst
  obtain ⟨hfront, hrest⟩ := cut_at_mark (unmarked_iff.mp hbase.unmarked) hhead
  have hsteps : Step.readAll? (marks.flatten ++ c :: digits) = none := by
    rw [Step.readAll?, Step.readTail?_eq_none digital hmark hlarge]
  unfold read?
  rw [htext, List.append_assoc]
  dsimp only
  rw [hfront, hrest, hsteps, Option.map_none, ite_self, ite_self]

theorem spells_text (hbase : BaseText fragment.base) (hplain : Plain fragment.base)
    (hsteps : ∀ step ∈ fragment.steps, step.InRange) : fragment.Spells fragment.text := by
  have hwritten : List.Forall₂ Step.WrittenAs (fragment.steps.map Step.text) fragment.steps := by
    rw [List.forall₂_map_left_iff, List.forall₂_same]
    exact fun step hstep => Step.writtenAs_text (hsteps step hstep)
  have htext : fragment.text = fragment.base ++ (fragment.steps.map Step.text).flatten := by
    rw [text, List.flatMap_def]
  exact ⟨hbase, htext ▸ hplain.append_steps hwritten, _, htext, hwritten⟩

/-- Reading accepts the grammar and nothing else, and reads what writing writes. -/
theorem reads_grammar :
    (∀ text fragment, read? text = some fragment ↔ fragment.Spells text) ∧
      ∀ fragment : Fragment, BaseText fragment.base → Plain fragment.base →
        (∀ step ∈ fragment.steps, step.InRange) → read? fragment.text = some fragment := by
  refine ⟨fun text fragment => read?_eq_some_iff, ?_⟩
  intro fragment hbase hplain hsteps
  exact read?_eq_some_iff.mpr (spells_text hbase hplain hsteps)

theorem reads_grammar_written :
    let fragment : Fragment := ⟨['h', 'é', '/', 'x'], [.parent 4294967295, .ancestor 0, .parent 1]⟩
    BaseText fragment.base ∧ Plain fragment.base ∧ (∀ step ∈ fragment.steps, step.InRange) ∧
      fragment.text = "hé/x^4294967295~0^1".toList ∧ read? fragment.text = some fragment ∧
      read? "hé/x^4294967295~000^".toList = some fragment := by
  intro fragment
  have hbase : BaseText fragment.base := ⟨by decide, by simp [fragment], by decide, by decide, by decide⟩
  have hplain : Plain fragment.base := ⟨by simp [fragment], by decide⟩
  have hsteps : ∀ step ∈ fragment.steps, step.InRange := by decide
  refine ⟨hbase, hplain, hsteps, by decide, reads_grammar.2 fragment hbase hplain hsteps, ?_⟩
  refine (reads_grammar.1 _ fragment).mpr ⟨hbase, ⟨by simp, by decide⟩, ?_⟩
  exact ⟨["^4294967295".toList, "~000".toList, "^".toList], by decide,
    .cons (@Step.WrittenAs.parent "4294967295".toList (List.all_eq_true.mp (by decide)) (by decide)
      (by decide)) <|
      .cons (@Step.WrittenAs.ancestor "000".toList (List.all_eq_true.mp (by decide)) (by decide)) <|
        .cons (@Step.WrittenAs.parent [] (List.forall_mem_nil _) (by decide) (by decide)) .nil⟩

end Fragment

end GuardedRevision
