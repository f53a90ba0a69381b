import GuardedRevision.Proofs.Asking
import GuardedRevision.Proofs.Completeness
import GuardedRevision.Proofs.FragmentGrammar

/-!
# Resolutions spell their texts

Nothing of a text is lost on the way to its resolution, and nothing counts twice: the names of its sides,
the mark between them and the path make the text again. A text is made so in one form only.
-/

namespace GuardedRevision

namespace Text

/-- A text is cut where it ends, or before a slash. -/
structure IsCut (text front path : List Char) : Prop where
  whole : front ++ path = text
  opens : path = [] ∨ path.head? = some '/'

variable {text front path : List Char}

theorem mem_pathSplits_iff : (front, path) ∈ pathSplits text ↔ IsCut text front path := by
  induction text generalizing front with
  | nil =>
      constructor
      · intro hmem
        cases List.mem_singleton.mp hmem
        exact ⟨rfl, .inl rfl⟩
      · rintro ⟨heq, _⟩
        obtain ⟨rfl, rfl⟩ := List.append_eq_nil_iff.mp heq
        exact List.mem_singleton_self _
  | cons c rest ih =>
      have hlonger : (front, path) ∈ (pathSplits rest).map (fun cut => (c :: cut.1, cut.2)) ↔
          ∃ shorter, front = c :: shorter ∧ IsCut rest shorter path := by
        rw [List.mem_map]
        constructor
        · rintro ⟨⟨shorter, left⟩, hmem, heq⟩
          cases heq
          exact ⟨shorter, rfl, ih.mp hmem⟩
        · rintro ⟨shorter, rfl, hcut⟩
          exact ⟨(shorter, path), ih.mpr hcut, rfl⟩
      have hmem : (front, path) ∈ pathSplits (c :: rest) ↔ (c = '/' ∧ front = [] ∧ path = c :: rest) ∨
          (front, path) ∈ (pathSplits rest).map (fun cut => (c :: cut.1, cut.2)) := by
        rw [pathSplits]
        split <;> simp_all
      rw [hmem, hlonger]
      cases front with
      | nil =>
          constructor
          · rintro (⟨rfl, _, rfl⟩ | ⟨_, hne, _⟩)
            · exact ⟨rfl, .inr rfl⟩
            · cases hne
          · rintro ⟨heq, hpath⟩
            left
            obtain rfl : path = c :: rest := heq
            rcases hpath with hnil | hslash
            · cases hnil
            · exact ⟨Option.some.inj hslash, rfl, rfl⟩
      | cons d front =>
          constructor
          · rintro (⟨_, hne, _⟩ | ⟨shorter, heq, hwhole, hpath⟩)
            · cases hne
            · cases heq
              exact ⟨by rw [List.cons_append, hwhole], hpath⟩
          · rintro ⟨heq, hpath⟩
            obtain ⟨rfl, hwhole⟩ := List.cons_eq_cons.mp heq
            exact .inr ⟨front, rfl, hwhole, hpath⟩

end Text

namespace Expression

inductive Form where
  | single
  | range
  | againstParent
  deriving DecidableEq

def form : Expression → Form
  | .range _ _ => .range
  | .againstParent _ _ => .againstParent
  | .single _ => .single

def text : Expression → List Char
  | .range old new => old ++ ['.', '.'] ++ new
  | .againstParent name rest => name ++ ['^', '!'] ++ rest
  | .single text => text

theorem text_ofBody (body : List Char) : (ofBody body).text = body := by
  unfold ofBody
  split
  · next old new hcut => exact (Text.breakOn_append hcut).symm
  · split
    · next name rest hcut => exact (Text.breakOn_append hcut).symm
    · rfl

theorem text_of_read? {text : List Char} {expression : Expression} (hread : read? text = some expression) :
    expression.text = body text := by
  unfold read? at hread
  split at hread
  · cases hread
  · cases hread
    exact text_ofBody _

theorem mem_candidates_iff {text front path : List Char} :
    (front, path) ∈ candidates text ↔ front ≠ [] ∧ Text.IsCut text front path := by
  rw [candidates, List.mem_filter, List.mem_reverse, Text.mem_pathSplits_iff, and_comm]
  simp

end Expression

/-- The texts that are read as fragments, with all that the grammar says of them. -/
def IsFragment (text : List Char) : Prop :=
  ∃ fragment, Fragment.read? text = some fragment ∧ fragment.Spells text

namespace IsFragment

variable {text : List Char}

theorem of_read? {fragment : Fragment} (hread : Fragment.read? text = some fragment) : IsFragment text :=
  ⟨fragment, hread, Fragment.read?_eq_some_iff.mp hread⟩

theorem plain (names : IsFragment text) : Fragment.Plain text := by
  obtain ⟨_, _, hspells⟩ := names
  exact hspells.plain

theorem ne_nil (names : IsFragment text) : text ≠ [] := by
  obtain ⟨fragment, _, hspells⟩ := names
  obtain ⟨marks, htext, _⟩ := hspells.written
  rw [htext]
  exact List.append_ne_nil_of_left_ne_nil hspells.base.nonempty _

theorem parent (names : IsFragment text) : IsFragment (text ++ ['^']) := by
  obtain ⟨fragment, hread, _⟩ := names
  exact .of_read? (Fragment.read?_step hread Step.writtenAs_caret)

theorem mark_ne_dots (names : IsFragment text) (path : List Char) :
    ['.', '.'] ++ text ++ path ≠ text ++ ['^', '!'] ++ path := by
  intro heq
  match text, names.ne_nil with
  | [c], _ => simp at heq
  | c :: d :: rest, _ =>
      simp only [List.cons_append, List.nil_append, List.cons.injEq] at heq
      obtain ⟨rfl, rfl, _⟩ := heq
      exact names.plain.undotted ⟨[], rest, rfl⟩

end IsFragment

namespace Resolution

def oldName (resolution : Resolution) : List Char :=
  (resolution.old.map fun old => old.name.toList).getD []

/-- The text that the parts of a resolution make in each form. -/
def spelling (resolution : Resolution) : Expression.Form → List Char
  | .single => resolution.revision.name.toList ++ resolution.path.toList
  | .range => resolution.oldName ++ ['.', '.'] ++ resolution.revision.name.toList ++ resolution.path.toList
  | .againstParent => resolution.revision.name.toList ++ ['^', '!'] ++ resolution.path.toList

def OldSideSuits (resolution : Resolution) : Expression.Form → Prop
  | .single => resolution.old = none
  | .range => resolution.old ≠ none
  | .againstParent => ∀ old ∈ resolution.old, old.name.toList = resolution.revision.name.toList ++ ['^']

/-- What it is for a resolution to spell a text. -/
structure Spells (resolution : Resolution) (text : List Char) : Prop where
  once : ∃! form, resolution.spelling form = text
  old : ∀ form, resolution.spelling form = text → resolution.OldSideSuits form
  path : resolution.path.toList = [] ∨ resolution.path.toList.head? = some '/'
  newNames : IsFragment resolution.revision.name.toList
  oldNames : ∀ old ∈ resolution.old, IsFragment old.name.toList

variable {resolution : Resolution} {form other : Expression.Form}

def extraLength (resolution : Resolution) : Expression.Form → Nat
  | .single => 0
  | .range => resolution.oldName.length + 2
  | .againstParent => 2

theorem length_spelling : (resolution.spelling form).length =
    resolution.revision.name.toList.length + resolution.path.toList.length + resolution.extraLength form := by
  cases form with
  | single => simp [spelling, extraLength]
  | range =>
      simp only [spelling, extraLength, List.length_append, List.length_cons, List.length_nil]
      omega
  | againstParent =>
      simp only [spelling, extraLength, List.length_append, List.length_cons, List.length_nil]
      omega

/-- In the form that its old side suits, a resolution makes a text that it makes in no other form. -/
theorem form_eq_of_spelling (hsuits : resolution.OldSideSuits form)
    (hnew : IsFragment resolution.revision.name.toList)
    (hold : ∀ old ∈ resolution.old, IsFragment old.name.toList)
    (heq : resolution.spelling other = resolution.spelling form) : other = form := by
  have hextra : resolution.extraLength other = resolution.extraLength form := by
    have hlength := congrArg List.length heq
    rw [length_spelling, length_spelling] at hlength
    exact Nat.add_left_cancel hlength
  cases form with
  | single =>
      cases other with
      | single => rfl
      | range => cases hextra
      | againstParent => cases hextra
  | range =>
      obtain ⟨side, hside⟩ := Option.ne_none_iff_exists'.mp hsuits
      have hlong : resolution.oldName ≠ [] := by
        rw [oldName, hside]
        exact (hold side hside).ne_nil
      cases other with
      | single => cases hextra
      | range => rfl
      | againstParent => exact absurd (List.length_eq_zero_iff.mp (Nat.add_right_cancel hextra.symm)) hlong
  | againstParent =>
      cases other with
      | single => cases hextra
      | range =>
          -- Only without an old side are the lengths the same.
          have hshort : resolution.oldName = [] := List.length_eq_zero_iff.mp (Nat.add_right_cancel hextra)
          rw [spelling, spelling, hshort, List.nil_append] at heq
          exact absurd heq (hnew.mark_ne_dots _)
      | againstParent => rfl

theorem Spells.of_form (hsuits : resolution.OldSideSuits form)
    (hnew : IsFragment resolution.revision.name.toList)
    (hold : ∀ old ∈ resolution.old, IsFragment old.name.toList)
    (hpath : resolution.path.toList = [] ∨ resolution.path.toList.head? = some '/') :
    resolution.Spells (resolution.spelling form) := by
  have honly : ∀ other, resolution.spelling other = resolution.spelling form → other = form :=
    fun _ heq => form_eq_of_spelling hsuits hnew hold heq
  exact ⟨⟨form, rfl, honly⟩, fun other heq => honly other heq ▸ hsuits, hpath, hnew, hold⟩

end Resolution

namespace Repository

open Resolution

variable {repo : Repository} {roots : List ObjectId} {before after : VisibilityMemo} {text : List Char}
  {revision : Revision} {resolution : Resolution}

theorem name_of_revision {name : String} {id : ObjectId} (hrevision : repo.revision name id = .ok revision) :
    revision.name = name := by
  obtain ⟨kind, _, hrevision⟩ := except_bind_eq_ok_iff.mp hrevision
  obtain ⟨peeled, _, hrevision⟩ := except_bind_eq_ok_iff.mp hrevision
  obtain ⟨peeledKind, _, hrevision⟩ := except_bind_eq_ok_iff.mp hrevision
  cases hrevision
  rfl

theorem resolveFragment_names
    (hresolve : Gives (repo.resolveFragment roots text) before (some revision) after) :
    revision.name.toList = text ∧ IsFragment revision.name.toList := by
  obtain ⟨fragment, _, _, _, _, hread, _, _, _, _, hrevision⟩ := gives_resolveFragment_iff.mp hresolve
  have hname : revision.name.toList = text := by rw [name_of_revision hrevision, String.toList_ofList]
  exact ⟨hname, .of_read? (hname ▸ hread)⟩

theorem resolveWithPath_names {path : List Char}
    (hresolve : Gives (repo.resolveWithPath text) before (some (revision, path)) after) :
    Text.IsCut text revision.name.toList path ∧ IsFragment revision.name.toList := by
  obtain ⟨front, middle, hmem, hfragment⟩ := resolveFirst_gives hresolve
  obtain ⟨rfl, hnames⟩ := resolveFragment_names hfragment
  exact ⟨(Expression.mem_candidates_iff.mp hmem).2, hnames⟩

theorem resolveExpression_spells {expression : Expression}
    (hresolve : Gives (repo.resolveExpression expression) before (some resolution) after) :
    resolution.spelling expression.form = expression.text ∧ resolution.OldSideSuits expression.form ∧
      (resolution.path.toList = [] ∨ resolution.path.toList.head? = some '/') ∧
      IsFragment resolution.revision.name.toList ∧ ∀ old ∈ resolution.old, IsFragment old.name.toList := by
  cases gives_resolveExpression_iff.mp hresolve with
  | range resolves resolvesOld =>
      obtain ⟨⟨htext, hpath⟩, hnames⟩ := resolveWithPath_names resolves
      obtain ⟨holdName, holdNames⟩ := resolveFragment_names resolvesOld
      refine ⟨?_, by simp [OldSideSuits, Expression.form], by simpa using hpath, hnames, ?_⟩
      · simp [spelling, Expression.form, Expression.text, oldName, holdName, htext]
      · simpa using holdNames
  | againstParent resolves stored opens =>
      obtain ⟨hname, hnames⟩ := resolveFragment_names resolves
      refine ⟨?_, ?_, by simpa using opens, hnames, ?_⟩
      · simp [spelling, Expression.form, Expression.text, hname]
      · intro old hold
        obtain ⟨parent, _, rfl⟩ := Option.map_eq_some_iff.mp hold
        simp [Revision.ofCommit, hname]
      · intro old hold
        obtain ⟨parent, _, rfl⟩ := Option.map_eq_some_iff.mp hold
        rw [Revision.ofCommit, String.toList_ofList, ← hname]
        exact hnames.parent
  | single resolves =>
      obtain ⟨⟨htext, hpath⟩, hnames⟩ := resolveWithPath_names resolves
      refine ⟨?_, rfl, by simpa using hpath, hnames, by simp⟩
      simp [spelling, Expression.form, Expression.text, htext]

/-- Whatever has been asked before, what a text resolves to spells the text. -/
theorem resolve_spells {memo : VisibilityMemo} {text : String}
    (hresolve : ((repo.resolve text).on memo).1 = .ok (some resolution)) :
    resolution.Spells (Expression.body text.toList) := by
  have hgives : Gives (repo.resolve text) memo (some resolution) ((repo.resolve text).on memo).2 :=
    Prod.ext hresolve rfl
  unfold resolve at hgives
  split at hgives
  · cases (gives_pure.mp hgives).1
  · next expression hread =>
      obtain ⟨hspelling, hsuits, hpath, hnew, hold⟩ := resolveExpression_spells hgives
      rw [← Expression.text_of_read? hread, ← hspelling]
      exact .of_form hsuits hnew hold hpath

theorem resolve_spells_marks : ∃ resolution,
    ((underReview.resolve "/1111..refs/changes/1/a..b^!:c").on (.empty ⟨["refs/changes/"]⟩ 4)).1 =
      .ok (some resolution) ∧
    resolution.path = "/a..b^!:c" ∧
    resolution.Spells (Expression.body "/1111..refs/changes/1/a..b^!:c".toList) := by
  have hresolve :
      ((underReview.resolve "/1111..refs/changes/1/a..b^!:c").on (.empty ⟨["refs/changes/"]⟩ 4)).1 =
        .ok (some ⟨.ofCommit "refs/changes/1" secondChange, some (.ofCommit "1111" firstChange),
          "/a..b^!:c"⟩) := by
    decide +kernel
  exact ⟨_, hresolve, rfl, resolve_spells hresolve⟩

end Repository

end GuardedRevision
