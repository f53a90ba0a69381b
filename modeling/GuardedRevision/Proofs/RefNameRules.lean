import GuardedRevision.Proofs.RefPaths

/-!
# The rules of ref names

Which texts are ref names, rule by rule and in no order. Two more rules make up what a store asks of a name:
no dot at the end, and more than the mark that stands for `HEAD`. A text that breaks only those is accepted.
-/

namespace GuardedRevision

namespace RefName

variable {text component suffix : List Char}

/-! ### The rules -/

/-- The rules that every ref name keeps. -/
structure KeepsRules (text : List Char) : Prop where
  nonempty : text ≠ []
  opening : text.head? ≠ some '/'
  closing : text.getLast? ≠ some '/'
  components : ∀ component ∈ text.splitOn '/',
    component ≠ [] ∧ component.head? ≠ some '.' ∧ ¬ ".lock".toList <:+ component
  singleDots : ¬ ['.', '.'] <:+: text
  noReflog : ¬ ['@', '{'] <:+: text
  printed : ∀ c ∈ text, 32 ≤ c.toNat ∧ c.toNat ≠ 127
  allowed : ∀ c ∈ text, c ∉ [' ', '~', '^', ':', '?', '*', '[', '\\']

/-- All rules for names of refs, those of one component included. -/
structure Conforms (text : List Char) : Prop extends KeepsRules text where
  undotted : text.getLast? ≠ some '.'
  notHead : text ≠ ['@']

/-- What is wrong with a text for which this error is given. -/
def Breaks (text : List Char) : RefNameError → Prop
  | .empty => text = []
  | .leadingSlash => text.head? = some '/'
  | .trailingSlash => text.getLast? = some '/'
  | .trailingLock => ".lock".toList <:+ text
  | .doubleDot => ['.', '.'] <:+: text
  | .reflogMark => ['@', '{'] <:+: text
  | .doubleSlash => ['/', '/'] <:+: text
  | .character c => c ∈ [' ', '~', '^', ':', '?', '*', '[', '\\'] ∧ c ∈ text
  | .control => ∃ c ∈ text, c.toNat < 32 ∨ c.toNat = 127
  | .componentDot => ∃ component ∈ text.splitOn '/', component.head? = some '.'
  | .componentLock => ∃ component ∈ text.splitOn '/', ".lock".toList <:+ component

/-! ### Marks between components -/

theorem nil_mem_tail_splitOn (hdouble : ['/', '/'] <:+: text) : [] ∈ (text.splitOn '/').tail := by
  induction text with
  | nil => simp at hdouble
  | cons c rest ih =>
      obtain ⟨first, later, heq⟩ := List.exists_cons_of_ne_nil (List.splitOn_ne_nil '/' rest)
      rw [List.splitOn_cons_eq_if_modifyHead, heq]
      rcases List.infix_cons_iff.mp hdouble with hlead | hrest
      · obtain ⟨tail, htail⟩ := hlead
        obtain ⟨rfl, rfl⟩ : '/' = c ∧ '/' :: tail = rest := List.cons_eq_cons.mp htail
        rw [List.splitOn_cons_eq_if_modifyHead] at heq
        simp_all
      · have hlater : [] ∈ later := by simpa [heq] using ih hrest
        split_ifs <;> simp [hlater]

theorem exists_suffix_splitOn (hslash : '/' ∉ suffix) (hsuffix : suffix <:+ text) :
    ∃ component ∈ text.splitOn '/', suffix <:+ component := by
  induction text with
  | nil => exact ⟨[], by simp, hsuffix⟩
  | cons c rest ih =>
      rcases List.suffix_cons_iff.mp hsuffix with rfl | hrest
      · rw [List.splitOn_eq_singleton hslash]
        exact ⟨_, List.mem_singleton_self _, List.suffix_refl _⟩
      · obtain ⟨component, hmem, hends⟩ := ih hrest
        obtain ⟨first, later, heq⟩ := List.exists_cons_of_ne_nil (List.splitOn_ne_nil '/' rest)
        rw [List.splitOn_cons_eq_if_modifyHead]
        split_ifs
        · exact ⟨component, List.mem_cons_of_mem _ hmem, hends⟩
        · rw [heq] at hmem ⊢
          rcases List.mem_cons.mp hmem with rfl | hin
          · exact ⟨c :: component, List.mem_cons_self, hends.trans (List.suffix_cons c component)⟩
          · exact ⟨component, List.mem_cons_of_mem _ hin, hends⟩

/-! ### What is checked -/

theorem isControl_iff {c : Char} : isControl c = true ↔ c.toNat < 32 ∨ c.toNat = 127 := by
  unfold isControl
  rw [Bool.or_eq_true, decide_eq_true_iff, beq_iff_eq, ← UInt32.toNat_inj, UInt32.lt_iff_toNat_lt]
  rfl

theorem mem_forbidden_iff {c : Char} : c ∈ forbidden ↔ c ∈ [' ', '~', '^', ':', '?', '*', '[', '\\'] := by
  simp only [forbidden, List.mem_cons, List.not_mem_nil, or_false]
  tauto

theorem breaks_of_find? {c : Char} (hfound : forbidden.find? text.contains = some c) :
    Breaks text (.character c) :=
  ⟨mem_forbidden_iff.mp (List.mem_of_find?_eq_some hfound), List.contains_iff_mem.mp (List.find?_some hfound)⟩

theorem breaks_of_componentProblem? {error : RefNameError} (hmem : component ∈ text.splitOn '/')
    (hproblem : componentProblem? component = some error) : Breaks text error := by
  unfold componentProblem? at hproblem
  split_ifs at hproblem with hdot hlock
  · cases hproblem
    exact ⟨component, hmem, hdot⟩
  · cases hproblem
    exact ⟨component, hmem, List.isSuffixOf_iff_suffix.mp hlock⟩

/-- An error says something that is wrong with the text. -/
theorem breaks_of_problem? {error : RefNameError} (hproblem : problem? text = some error) : Breaks text error := by
  unfold problem? at hproblem
  split_ifs at hproblem with hempty hopening hclosing hlock hdots hreflog hslashes hcontrol
  · cases hproblem
    exact List.isEmpty_iff.mp hempty
  · cases hproblem
    exact hopening
  · cases hproblem
    exact hclosing
  · cases hproblem
    exact List.isSuffixOf_iff_suffix.mp hlock
  · cases hproblem
    exact (Text.occursIn_iff (by simp)).mp hdots
  · cases hproblem
    exact (Text.occursIn_iff (by simp)).mp hreflog
  · cases hproblem
    exact (Text.occursIn_iff (by simp)).mp hslashes
  · cases hfound : forbidden.find? text.contains with
    | some c =>
        rw [hfound] at hproblem
        cases hproblem
        exact breaks_of_find? hfound
    | none =>
        rw [hfound] at hproblem
        cases hproblem
        obtain ⟨c, hmem, hc⟩ := List.any_eq_true.mp hcontrol
        exact ⟨c, hmem, isControl_iff.mp hc⟩
  · cases hfound : forbidden.find? text.contains with
    | some c =>
        rw [hfound] at hproblem
        cases hproblem
        exact breaks_of_find? hfound
    | none =>
        rw [hfound] at hproblem
        obtain ⟨component, hmem, hcomponent⟩ := List.exists_of_findSome?_eq_some hproblem
        exact breaks_of_componentProblem? hmem hcomponent

/-- A text that keeps the rules has nothing wrong with it: what the last errors say of components, the ones
about the ends and about two slashes say of the text. -/
theorem KeepsRules.not_breaks (keeps : KeepsRules text) (error : RefNameError) : ¬ Breaks text error := by
  cases error with
  | empty => exact keeps.nonempty
  | leadingSlash => exact keeps.opening
  | trailingSlash => exact keeps.closing
  | trailingLock =>
      intro hlock
      obtain ⟨component, hmem, hends⟩ := exists_suffix_splitOn (by decide) hlock
      exact (keeps.components component hmem).2.2 hends
  | doubleDot => exact keeps.singleDots
  | reflogMark => exact keeps.noReflog
  | doubleSlash =>
      intro hdouble
      exact (keeps.components [] (List.mem_of_mem_tail (nil_mem_tail_splitOn hdouble))).1 rfl
  | character c => exact fun ⟨hforbidden, hmem⟩ => keeps.allowed c hmem hforbidden
  | control =>
      rintro ⟨c, hmem, hcontrol⟩
      have hprinted := keeps.printed c hmem
      omega
  | componentDot => exact fun ⟨component, hmem, hdot⟩ => (keeps.components component hmem).2.1 hdot
  | componentLock => exact fun ⟨component, hmem, hlock⟩ => (keeps.components component hmem).2.2 hlock

theorem keepsRules_of_problem? (hnone : problem? text = none) : KeepsRules text := by
  obtain ⟨hne, hopening, hclosing, _, hdots, hreflog, _, hforbidden, hcontrol, hcomponents⟩ :=
    problem?_eq_none_iff.mp hnone
  refine ⟨hne, hopening, hclosing, fun component hmem => ?_, ?_, ?_, fun c hmem => ?_, fun c hmem hc => ?_⟩
  · have hdot := component_head_ne_dot hnone hmem
    refine ⟨fun hnil => nil_notMem_of_wellFormed hnone (hnil ▸ hmem), hdot, fun hlock => ?_⟩
    have hends : lockSuffix.isSuffixOf component = true := List.isSuffixOf_iff_suffix.mpr hlock
    have hproblem := hcomponents component hmem
    rw [componentProblem?, if_neg hdot, if_pos hends] at hproblem
    cases hproblem
  · rwa [← Text.occursIn_iff (by simp), Bool.not_eq_true]
  · rwa [← Text.occursIn_iff (by simp), Bool.not_eq_true]
  · have hc := List.any_eq_false.mp hcontrol c hmem
    rw [isControl_iff] at hc
    omega
  · exact List.find?_eq_none.mp hforbidden c (mem_forbidden_iff.mpr hc) (List.contains_iff_mem.mpr hmem)

theorem problem?_eq_none_iff_keepsRules : problem? text = none ↔ KeepsRules text := by
  refine ⟨keepsRules_of_problem?, fun keeps => ?_⟩
  cases hproblem : problem? text with
  | none => rfl
  | some error => exact absurd (breaks_of_problem? hproblem) (keeps.not_breaks error)

/-! ### What is accepted -/

theorem parse_eq_ok_iff {text : String} {name : RefName} : parse text = .ok name ↔ name.text = text := by
  constructor
  · exact text_of_parse
  · rintro rfl
    exact parse_text name

theorem problem?_of_parse {text : String} {error : RefNameError} (hparse : parse text = .error error) :
    problem? text.toList = some error := by
  unfold parse at hparse
  split at hparse
  · next found hfound =>
      cases hparse
      exact hfound
  · cases hparse

/-- What becomes of a text that is read as a ref name. -/
structure Judged (text : String) : Prop where
  accepted : (∃ name, parse text = .ok name) ↔ KeepsRules text.toList
  unchanged : ∀ name, parse text = .ok name → name.text = text
  refused : ∀ error, parse text = .error error → Breaks text.toList error
  /-- Of the names that are accepted, all conform but those that end in a dot, and `@`. -/
  conforming : Conforms text.toList ↔
    (∃ name, parse text = .ok name) ∧ text.toList.getLast? ≠ some '.' ∧ text ≠ "@"

theorem judged (text : String) : Judged text := by
  have haccepted : (∃ name, parse text = .ok name) ↔ KeepsRules text.toList := by
    rw [← problem?_eq_none_iff_keepsRules]
    constructor
    · rintro ⟨name, hname⟩
      rw [← text_of_parse hname]
      exact name.wellFormed
    · exact fun hnone => ⟨⟨text, hnone⟩, parse_eq_ok_iff.mpr rfl⟩
  refine ⟨haccepted, fun name => text_of_parse,
    fun error hparse => breaks_of_problem? (problem?_of_parse hparse), ?_⟩
  have hat : text.toList = ['@'] ↔ text = "@" := by
    rw [← String.toList_inj]
    rfl
  rw [haccepted]
  constructor
  · exact fun conforms => ⟨conforms.toKeepsRules, conforms.undotted, fun heq => conforms.notHead (hat.mpr heq)⟩
  · exact fun ⟨keeps, hundotted, hne⟩ => ⟨keeps, hundotted, fun heq => hne (hat.mp heq)⟩

/-- A dot at the end of a name, and `@` by itself, are not found fault with. -/
theorem parse_nonconforming :
    ((∃ name, parse "refs/heads/a." = .ok name) ∧ ¬ Conforms "refs/heads/a.".toList) ∧
      (∃ name, parse "@" = .ok name) ∧ ¬ Conforms "@".toList := by
  have hdotted : problem? "refs/heads/a.".toList = none := by decide
  have hat : problem? "@".toList = none := by decide
  exact ⟨⟨⟨⟨_, hdotted⟩, parse_eq_ok_iff.mpr rfl⟩, fun conforms => conforms.undotted (by decide)⟩,
    ⟨⟨_, hat⟩, parse_eq_ok_iff.mpr rfl⟩, fun conforms => conforms.notHead (by decide)⟩

end RefName

end GuardedRevision
