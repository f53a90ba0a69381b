import GuardedRevision.Repository.Refs
import Mathlib.Data.List.Basic
import Mathlib.Data.List.Infix

/-!
# Ref names as paths

A ref name has no empty component and none that begins with a dot. So a store keeps the ref under the
name itself, and a path that spells the name leads to that ref and to no other.
-/

namespace GuardedRevision

namespace Text

variable {mark text rest : List Char} {c : Char}

theorem occursIn_cons : occursIn mark (c :: rest) = (mark.isPrefixOf (c :: rest) || occursIn mark rest) := by
  unfold occursIn
  simp only [breakOn]
  split
  · next hlead => simp [hlead]
  · next hlead => simp [hlead, Option.isSome_map]

theorem occursIn_iff (hmark : mark ≠ []) : occursIn mark text = true ↔ mark <:+: text := by
  induction text with
  | nil => simp [occursIn, breakOn, hmark]
  | cons c rest ih => rw [occursIn_cons, Bool.or_eq_true, ih, List.isPrefixOf_iff_prefix, List.infix_cons_iff]

end Text

namespace RefName

variable {text : List Char}

theorem parse_text (name : RefName) : parse name.text = .ok name := by
  unfold parse
  split
  · next error hproblem =>
      rw [name.wellFormed] at hproblem
      cases hproblem
  · rfl

theorem text_of_parse {text : String} {name : RefName} (hparse : parse text = .ok name) : name.text = text := by
  unfold parse at hparse
  split at hparse
  · cases hparse
  · rw [← Except.ok.inj hparse]

theorem problem?_eq_none_iff :
    problem? text = none ↔
      text ≠ [] ∧ text.head? ≠ some '/' ∧ text.getLast? ≠ some '/' ∧
        lockSuffix.isSuffixOf text = false ∧ Text.occursIn ['.', '.'] text = false ∧
        Text.occursIn ['@', '{'] text = false ∧ Text.occursIn ['/', '/'] text = false ∧
        forbidden.find? text.contains = none ∧ text.any isControl = false ∧
        ∀ component ∈ text.splitOn '/', componentProblem? component = none := by
  unfold problem?
  simp only [List.isEmpty_iff]
  split_ifs with h1 h2 h3 h4 h5 h6 h7 h8
  · simp [h1]
  · simp [h2]
  · simp [h3]
  · simp [h4]
  · simp [h5]
  · simp [h6]
  · simp [h7]
  · constructor
    · intro h
      split at h <;> cases h
    · rintro ⟨_, _, _, _, _, _, _, _, hcontrol, _⟩
      rw [h8] at hcontrol
      cases hcontrol
  · rw [Bool.not_eq_true] at h4 h5 h6 h7 h8
    simp only [h1, h2, h3, h4, h5, h6, h7, h8, ne_eq, not_false_eq_true, true_and]
    rw [← List.findSome?_eq_none_iff]
    cases forbidden.find? text.contains with
    | some c => simp
    | none => simp

/-! ### Components -/

theorem eq_nil_or_slash_of_head_splitOn (hhead : (text.splitOn '/').head? = some []) :
    text = [] ∨ text.head? = some '/' := by
  cases text with
  | nil => exact .inl rfl
  | cons c rest =>
      right
      rw [List.splitOn_cons_eq_if_modifyHead] at hhead
      split at hhead
      · next hslash => simpa using hslash
      · obtain ⟨first, later, heq⟩ := List.exists_cons_of_ne_nil (List.splitOn_ne_nil '/' rest)
        simp [heq] at hhead

theorem slashes_of_nil_mem_tail_splitOn (hmem : [] ∈ (text.splitOn '/').tail) :
    text.getLast? = some '/' ∨ Text.occursIn ['/', '/'] text = true := by
  induction text with
  | nil => simp at hmem
  | cons c rest ih =>
      obtain ⟨first, later, heq⟩ := List.exists_cons_of_ne_nil (List.splitOn_ne_nil '/' rest)
      -- An empty component further on leaves its mark on what follows the first character.
      have hlater : [] ∈ later →
          (c :: rest).getLast? = some '/' ∨ Text.occursIn ['/', '/'] (c :: rest) = true := by
        intro hin
        rcases ih (by simpa [heq] using hin) with hlast | hdouble
        · left
          rw [List.getLast?_cons, hlast]
          rfl
        · right
          rw [Text.occursIn_cons, hdouble, Bool.or_true]
      rw [List.splitOn_cons_eq_if_modifyHead] at hmem
      split at hmem
      · next hslash =>
          obtain rfl : c = '/' := by simpa using hslash
          rw [List.tail_cons, heq] at hmem
          rcases List.mem_cons.mp hmem with hfirst | hin
          · rcases eq_nil_or_slash_of_head_splitOn (by rw [heq, ← hfirst]; rfl) with rfl | hnext
            · exact .inl rfl
            · right
              obtain ⟨tail, rfl⟩ := List.head?_eq_some_iff.mp hnext
              simp [Text.occursIn_cons]
          · exact hlater hin
      · exact hlater (by simpa [heq] using hmem)

theorem nil_notMem_splitOn (hne : text ≠ []) (hhead : text.head? ≠ some '/')
    (hlast : text.getLast? ≠ some '/') (hdouble : Text.occursIn ['/', '/'] text = false) :
    [] ∉ text.splitOn '/' := by
  intro hmem
  obtain ⟨first, later, heq⟩ := List.exists_cons_of_ne_nil (List.splitOn_ne_nil '/' text)
  rw [heq] at hmem
  rcases List.mem_cons.mp hmem with hfirst | hin
  · rcases eq_nil_or_slash_of_head_splitOn (by rw [heq, ← hfirst]; rfl) with hnil | hslash
    · exact hne hnil
    · exact hhead hslash
  · have hmark : text.getLast? = some '/' ∨ Text.occursIn ['/', '/'] text = true :=
      slashes_of_nil_mem_tail_splitOn (by rwa [heq])
    rcases hmark with hslash | hslashes
    · exact hlast hslash
    · rw [hdouble] at hslashes
      cases hslashes

theorem nil_notMem_of_wellFormed (wellFormed : problem? text = none) : [] ∉ text.splitOn '/' := by
  obtain ⟨hne, hhead, hlast, _, _, _, hdouble, _⟩ := problem?_eq_none_iff.mp wellFormed
  exact nil_notMem_splitOn hne hhead hlast hdouble

theorem component_head_ne_dot (wellFormed : problem? text = none) {component : List Char}
    (hmem : component ∈ text.splitOn '/') : component.head? ≠ some '.' := by
  intro hdot
  obtain ⟨_, _, _, _, _, _, _, _, _, hcomponents⟩ := problem?_eq_none_iff.mp wellFormed
  have hproblem := hcomponents component hmem
  simp [componentProblem?, hdot] at hproblem

theorem ofComponents_splitOn (text : String) : ofComponents (text.toList.splitOn '/') = text := by
  unfold ofComponents
  rw [List.intercalate_splitOn, String.ofList_toList]

theorem components_eq {text : String} (hnil : [] ∉ text.toList.splitOn '/') :
    components text = text.toList.splitOn '/' := by
  refine List.filter_eq_self.mpr fun component hmem => ?_
  rw [Bool.not_eq_true', List.isEmpty_eq_false_iff]
  rintro rfl
  exact hnil hmem

/-- A store keeps a ref under its own name; only `@` is another word for `HEAD`. -/
theorem eq_of_storeName? {text stored : String} (hnil : [] ∉ text.toList.splitOn '/') (hne : text ≠ "@")
    (hstored : storeName? text = some stored) : stored = text := by
  unfold storeName? at hstored
  split at hstored
  · simp at hstored
  · split at hstored
    · rw [components_eq hnil, ofComponents_splitOn] at hstored
      simpa [hne, eq_comm] using hstored
    · simp at hstored

/-- A name that a store takes has no dot in front of a component, unless after a caret. -/
theorem head_ne_dot_of_storeName? {text stored : String} (hcaret : text.toList.head? ≠ some '^')
    (hnil : [] ∉ text.toList.splitOn '/') (hstored : storeName? text = some stored) :
    ∀ component ∈ text.toList.splitOn '/', component.head? ≠ some '.' := by
  unfold storeName? at hstored
  rw [withoutCaret, if_neg hcaret, String.ofList_toList, components_eq hnil] at hstored
  split at hstored
  · simp at hstored
  · split at hstored
    · next htakes =>
        rw [Bool.and_eq_true, List.all_eq_true] at htakes
        intro component hmem hdot
        have htaken := htakes.1 component hmem
        simp [isStorableComponent, componentProblem?, hdot] at htaken
    · simp at hstored

end RefName

namespace Repository

variable {repo : Repository} {value : RefTarget} {folder path : List (List Char)}

theorem lookup_of_fileAt (hfile : repo.fileAt path = .ref value) :
    repo.refs.lookup (RefName.ofComponents path) = some value := by
  simp only [fileAt] at hfile
  split at hfile
  · next found hlookup =>
      cases hfile
      exact hlookup
  · split at hfile <;> simp at hfile

theorem readFrom_cons {component : List Char} {rest : List (List Char)}
    (hplain : component ≠ [] ∧ component.head? ≠ some '.') :
    repo.readFrom folder (component :: rest) =
      if maxComponentBytes < (String.ofList component).utf8ByteSize then .overlong
      else if rest.isEmpty then repo.fileAt (folder ++ [component])
      else if repo.isFolder (folder ++ [component]) then repo.readFrom (folder ++ [component]) rest
      else .absent := by
  obtain ⟨hne, hdot⟩ := hplain
  have hstay : ¬ (component = [] || component = ['.']) = true := by
    simp only [Bool.or_eq_true, decide_eq_true_eq, not_or]
    exact ⟨hne, by rintro rfl; exact hdot rfl⟩
  have hup : ¬ component = ['.', '.'] := by
    rintro rfl
    exact hdot rfl
  rw [readFrom, if_neg hstay, if_neg hup]

/-- Along a path without empty components and dots every step goes down, so that only the file of that
name can be found. -/
theorem readFrom_cases (hplain : ∀ component ∈ path, component ≠ [] ∧ component.head? ≠ some '.') :
    repo.readFrom folder path = .absent ∨ repo.readFrom folder path = .overlong ∨
      repo.readFrom folder path = repo.fileAt (folder ++ path) := by
  induction path generalizing folder with
  | nil => exact .inl rfl
  | cons component rest ih =>
      obtain ⟨hcomponent, hrest⟩ := List.forall_mem_cons.mp hplain
      rw [readFrom_cons hcomponent]
      split
      · exact .inr (.inl rfl)
      · split
        · next hlast =>
            rw [List.isEmpty_iff.mp hlast]
            exact .inr (.inr rfl)
        · split
          · simpa using @ih (folder ++ [component]) hrest
          · exact .inl rfl

theorem read_cases {name : String} (hnil : [] ∉ name.toList.splitOn '/')
    (hdots : ∀ component ∈ name.toList.splitOn '/', component.head? ≠ some '.') :
    repo.read name = .absent ∨ repo.read name = .overlong ∨
      repo.read name = repo.fileAt (name.toList.splitOn '/') := by
  unfold read
  split
  · exact .inr (.inl rfl)
  · have hcases := @readFrom_cases repo [] (name.toList.splitOn '/') fun component hmem =>
      ⟨fun hempty => hnil (hempty ▸ hmem), hdots component hmem⟩
    rwa [List.nil_append] at hcases

theorem exists_lookup_of_readFrom (hread : repo.readFrom folder path = .ref value) :
    ∃ name, repo.refs.lookup name = some value := by
  induction path generalizing folder with
  | nil => simp [readFrom] at hread
  | cons component rest ih =>
      rw [readFrom] at hread
      split at hread
      · exact ih hread
      · split at hread
        · split at hread
          · simp at hread
          · exact ih hread
        · split at hread
          · simp at hread
          · split at hread
            · exact ⟨_, lookup_of_fileAt hread⟩
            · split at hread
              · exact ih hread
              · simp at hread

theorem exists_lookup_of_read {name : String} (hread : repo.read name = .ref value) :
    ∃ name, repo.refs.lookup name = some value := by
  unfold read at hread
  split at hread
  · simp at hread
  · exact exists_lookup_of_readFrom hread

theorem lookup_of_read {name : String} (hnil : [] ∉ name.toList.splitOn '/')
    (hdots : ∀ component ∈ name.toList.splitOn '/', component.head? ≠ some '.')
    (hread : repo.read name = .ref value) : repo.refs.lookup name = some value := by
  rcases read_cases hnil hdots with habsent | hoverlong | hfile
  · rw [hread] at habsent
    cases habsent
  · rw [hread] at hoverlong
    cases hoverlong
  · have hlookup := lookup_of_fileAt (hfile.symm.trans hread)
    rwa [RefName.ofComponents_splitOn] at hlookup

theorem lookup_of_read_name {name : RefName} (hread : repo.read name.text = .ref value) :
    repo.refs.lookup name.text = some value :=
  lookup_of_read (RefName.nil_notMem_of_wellFormed name.wellFormed)
    (fun _ => RefName.component_head_ne_dot name.wellFormed) hread

theorem lookup_of_refValue {name : RefName} (hne : name.text ≠ "@")
    (hvalue : repo.refValue name.text = .ok (some value)) :
    repo.refs.lookup name.text = some value := by
  have hnil := RefName.nil_notMem_of_wellFormed name.wellFormed
  unfold refValue at hvalue
  split at hvalue
  · simp at hvalue
  · split at hvalue
    · simp at hvalue
    · next stored hstored =>
        rw [RefName.eq_of_storeName? hnil hne hstored] at hvalue
        split at hvalue
        · simp at hvalue
        · split at hvalue
          · next found hread =>
              cases hvalue
              exact lookup_of_read_name hread
          · simp at hvalue
          · simp at hvalue

end Repository

end GuardedRevision
