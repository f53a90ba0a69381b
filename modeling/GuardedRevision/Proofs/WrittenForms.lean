import GuardedRevision.Proofs.LongestPrefix

/-!
# Forms as they are written

A text that is put together in one form of expressions is read in that form: a fragment alone as a single
revision, of which the whole is tried first, and fragments with a mark between or after them as a comparison.
-/

namespace GuardedRevision

namespace Text

variable {mark left text : List Char}

theorem breakOn_of_first (hne : mark ≠ []) (hfirst : ¬ mark <:+: left ++ mark.dropLast) (right : List Char) :
    breakOn mark (left ++ mark ++ right) = some (left, right) := by
  induction left with
  | nil =>
      obtain ⟨c, rest, rfl⟩ := List.exists_cons_of_ne_nil hne
      have hlead : c :: rest <+: c :: (rest ++ right) := List.prefix_append (c :: rest) right
      rw [List.nil_append, List.cons_append, breakOn, if_pos (List.isPrefixOf_iff_prefix.mpr hlead)]
      simp
  | cons c rest ih =>
      have hlater : ¬ mark <:+: rest ++ mark.dropLast := fun hinside =>
        hfirst (hinside.trans (List.suffix_cons c _).isInfix)
      -- Here the mark would end within the text that it is not to occur in.
      have hlead : ¬ mark <+: c :: (rest ++ mark ++ right) := by
        intro hlead
        have hwhole : c :: rest ++ mark.dropLast <+: c :: (rest ++ mark ++ right) := by
          rw [List.cons_append, List.cons_prefix_cons, List.append_assoc, List.prefix_append_right_inj]
          exact ⟨rfl, (List.dropLast_prefix mark).trans (List.prefix_append _ _)⟩
        have hlength : mark.length ≤ (c :: rest ++ mark.dropLast).length := by
          simp only [List.length_append, List.length_cons, List.length_dropLast]
          omega
        exact hfirst (List.prefix_of_prefix_length_le hlead hwhole hlength).isInfix
      rw [List.cons_append, List.cons_append, breakOn,
        if_neg (by rwa [List.isPrefixOf_iff_prefix]), ih hlater, Option.map_some]

theorem exists_pathSplits (text : List Char) : ∃ shorter, pathSplits text = shorter ++ [(text, [])] := by
  induction text with
  | nil => exact ⟨[], rfl⟩
  | cons c rest ih =>
      obtain ⟨shorter, hrest⟩ := ih
      rw [pathSplits, hrest, List.map_append]
      split
      · exact ⟨([], c :: rest) :: shorter.map fun cut => (c :: cut.1, cut.2), rfl⟩
      · exact ⟨_, rfl⟩

end Text

/-- The whole text is tried first. -/
theorem Expression.exists_candidates {text : List Char} (hne : text ≠ []) :
    ∃ shorter, candidates text = (text, []) :: shorter := by
  obtain ⟨shorter, hsplits⟩ := Text.exists_pathSplits text
  rw [candidates, hsplits, List.reverse_append, List.reverse_singleton, List.singleton_append,
    List.filter_cons_of_pos (by simpa using hne)]
  exact ⟨_, rfl⟩

namespace IsFragment

variable {text rest : List Char}

/-- No slash stands before a fragment, so none is dropped. -/
theorem body_append (names : IsFragment text) (rest : List Char) : Expression.body (text ++ rest) = text ++ rest := by
  obtain ⟨fragment, _, hbase, _, marks, rfl, _⟩ := names
  obtain ⟨c, base, heq⟩ := List.exists_cons_of_ne_nil hbase.nonempty
  have hslash : ('/' == c) = false := by
    have hopens := hbase.opens
    rw [heq, List.head?_cons, ne_eq, Option.some.injEq] at hopens
    exact beq_eq_false_iff_ne.mpr (Ne.symm hopens)
  rw [heq]
  simp [Expression.body, Text.afterLead?, List.isPrefixOf, hslash]

theorem notMem (names : IsFragment text) : '!' ∉ text := names.plain.allowed '!' (by simp)

theorem read?_single (names : IsFragment text) : Expression.read? text = some (.single text) := by
  have hbody : Expression.body text = text := by simpa using names.body_append []
  have hmark : ¬ ['^', '!'] <:+: text := fun hinside => names.notMem (hinside.subset (by simp))
  rw [Expression.read?_of_unmarked (by rw [hbody]; exact names.ne_nil) (by rw [hbody]; exact names.plain.undotted)
    (by rwa [hbody]), hbody]

theorem read?_againstParent (names : IsFragment text) :
    Expression.read? (text ++ ['^', '!']) = some (.againstParent text []) := by
  have hundotted : ¬ ['.', '.'] <:+: text ++ ['^', '!'] := fun hinside =>
    names.plain.undotted (@Text.infix_of_append ['.'] _ _ '.' hinside (by decide))
  have hdots : Text.breakOn ['.', '.'] (text ++ ['^', '!']) = none := by
    rwa [← Text.occursIn_iff (by simp), Text.occursIn, Option.isSome_iff_ne_none, not_not] at hundotted
  have hmark : ¬ ['^', '!'] <:+: text ++ ['^'] := fun hinside =>
    absurd (hinside.subset (by simp : '!' ∈ ['^', '!'])) (by simp [names.notMem])
  have hbreak := Text.breakOn_of_first (List.cons_ne_nil _ _) hmark []
  rw [List.append_nil] at hbreak
  rw [Expression.read?, names.body_append, if_neg (by simp), Expression.ofBody, hdots, hbreak]

theorem read?_range_of_undotted (names : IsFragment text) (hlast : text.getLast? ≠ some '.') (new : List Char) :
    Expression.read? (text ++ ['.', '.'] ++ new) = some (.range text new) := by
  have hundotted : ¬ ['.', '.'] <:+: text ++ ['.'] := by
    rintro ⟨before, after, heq⟩
    have hends := congrArg List.dropLast heq
    rcases List.eq_nil_or_concat after with rfl | ⟨after, last, rfl⟩
    · apply hlast
      rw [List.append_nil, List.dropLast_concat, List.dropLast_append_cons] at hends
      rw [← hends]
      simp
    · refine names.plain.undotted ⟨before, after, ?_⟩
      simpa [← List.append_assoc] using hends
  have hbreak := Text.breakOn_of_first (List.cons_ne_nil _ _) hundotted new
  rw [List.append_assoc _ _ new] at hbreak ⊢
  rw [Expression.read?, names.body_append, if_neg (by simp), Expression.ofBody, hbreak]

theorem read?_range (names : IsFragment text) (new : List Char) :
    Expression.read? (text ++ ['^'] ++ ['.', '.'] ++ new) = some (.range (text ++ ['^']) new) :=
  names.parent.read?_range_of_undotted (by simp) new

end IsFragment

namespace Repository

variable {repo : Repository} {before after : VisibilityMemo} {text : List Char} {revision : Revision}

theorem resolve_of_read? {name : String} {expression : Expression}
    (hread : Expression.read? name.toList = some expression) :
    repo.resolve name = repo.resolveExpression expression := by
  unfold resolve
  rw [hread]

/-- The whole text is tried first, so where it resolves it is what the text names. -/
theorem resolveWithPath_of_gives (hresolve : Gives (repo.resolveFragment [] text) before (some revision) after) :
    Gives (repo.resolveWithPath text) before (some (revision, [])) after := by
  have hne : text ≠ [] := by
    rintro rfl
    cases (gives_pure.mp hresolve).1
  obtain ⟨shorter, hcandidates⟩ := Expression.exists_candidates hne
  rw [resolveWithPath, hcandidates]
  exact gives_bind.mpr ⟨_, _, hresolve, gives_pure.mpr ⟨rfl, rfl⟩⟩

end Repository

end GuardedRevision
