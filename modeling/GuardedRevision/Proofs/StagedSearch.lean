import GuardedRevision.Proofs.Browsing

/-!
# Staged search

A search that leaves out the history of earlier starters loses nothing that those starters do not reach,
however the committer times are spread.
-/

namespace GuardedRevision.Repository

variable {repo : Repository} {target : ObjectId} {starters searched : List ObjectId}

/-- A search beyond earlier starters has an answer, never claims what its own starters do not reach, and
agrees with the plain search on each commit that the earlier starters do not reach. -/
theorem Complete.isReachableBeyond_lossless (complete : repo.Complete)
    (hcommit : repo.isCommit target = true) (hstarters : ∀ id ∈ starters, repo.Holds id)
    (hsearched : ∀ id ∈ searched, repo.Holds id) :
    ∃ found, repo.isReachableBeyond target starters searched = .ok found ∧
      (found = true → repo.ReachedBy starters target) ∧
      (¬ repo.ReachedBy searched target → repo.isReachableFrom target starters = .ok found) := by
  obtain ⟨found, hfound, hreached, hmissed⟩ :=
    complete.exists_isReachableBeyond hcommit hstarters hsearched
  refine ⟨found, hfound, hreached, fun hbeyond => ?_⟩
  obtain ⟨plain, hplain, hiff⟩ := complete.isReachableFrom hcommit hstarters
  have hsame : found = plain := by
    rw [Bool.eq_iff_iff, hiff]
    exact ⟨hreached, fun h => hmissed h hbeyond⟩
  rw [hsame]
  exact hplain

/-- The old side of the skewed repository is newer than what it hides, and the new side still shows the
commit that only it reaches. -/
theorem isReachableBeyond_lossless_skewed :
    skewed.Complete ∧ ¬ skewed.ReachedBy [skewedOld] (.repeating 7) ∧
      skewed.isReachableBeyond (.repeating 7) [skewedNew] [skewedOld] = .ok true ∧
      skewed.isReachableFrom (.repeating 7) [skewedNew] = .ok true := by
  have hcommit : skewed.isCommit (.repeating 7) = true := by decide +kernel
  have hnew : ∀ id ∈ [skewedNew], skewed.Holds id :=
    List.forall_mem_singleton.mpr (holds_iff_isOk.mpr (by decide +kernel))
  have hold : ∀ id ∈ [skewedOld], skewed.Holds id :=
    List.forall_mem_singleton.mpr (holds_iff_isOk.mpr (by decide +kernel))
  have hbeyond : ¬ skewed.ReachedBy [skewedOld] (.repeating 7) :=
    skewed_complete.not_reachedBy_of_isReachableFrom hcommit hold (by decide +kernel)
  obtain ⟨found, hfound, _, hsame⟩ :=
    skewed_complete.isReachableBeyond_lossless hcommit hnew hold
  have htrue : skewed.isReachableBeyond (.repeating 7) [skewedNew] [skewedOld] = .ok true := by
    decide +kernel
  rw [htrue, Except.ok.injEq] at hfound
  rw [← hfound] at hsame
  exact ⟨skewed_complete, hbeyond, htrue, hsame hbeyond⟩

end GuardedRevision.Repository
