import Mathlib.Data.List.Basic
import Mathlib.Logic.Function.Basic

/-!
# Registers of numbered entries

Slots hold entries.  An entry gets a number when it is opened, ends with a result, and is then
collected once.  Numbers come from a sequence `ν`; as long as the sequence has not repeated, no two
entries share a number, a result stays in its slot until it is collected, and nothing is collected
twice.  `Registered` is that invariant, with one rule for each thing that can happen to a slot.
-/

namespace EnhancedXv6.Registry

/-- The contents of a slot. -/
inductive Entry (N R : Type*)
  | free
  | active (n : N)
  | finished (n : N) (r : R)

variable {I N R : Type*}

def Entry.number : Entry N R → Option N
  | .free => none
  | .active n | .finished n _ => some n

/-- The slots, after `issued` numbers of the sequence `ν` were given out, the entries in `done`
ended and those in `taken` were collected. -/
structure Registered (ν : ℕ → N) (entry : I → Entry N R) (issued : ℕ) (done taken : List (N × R)) :
    Prop where
  numbered : ∀ i n, (entry i).number = some n → ∃ k < issued, n = ν k
  inj : ∀ i j n, (entry i).number = some n → (entry j).number = some n → i = j
  done_issued : ∀ x ∈ done, ∃ k < issued, x.1 = ν k
  active : ∀ i n, entry i = .active n → ∀ x ∈ done, x.1 ≠ n
  finished : ∀ i n r, entry i = .finished n r → (n, r) ∈ done
  kept : ∀ n r, (n, r) ∈ done → (n, r) ∈ taken ∨ ∃ i, entry i = .finished n r
  taken_done : ∀ x ∈ taken, x ∈ done
  taken_nodup : (taken.map Prod.fst).Nodup
  taken_gone : ∀ x ∈ taken, ∀ i, (entry i).number ≠ some x.1

namespace Registered

variable {ν : ℕ → N} {entry : I → Entry N R} {issued : ℕ} {done taken : List (N × R)} {i : I} {n : N}
  {r : R}

theorem empty : Registered ν (fun _ : I ↦ (.free : Entry N R)) 0 [] [] := by
  refine ⟨fun i n h ↦ ?_, fun i j n h ↦ ?_, ?_, fun i n h ↦ ?_, fun i n r h ↦ ?_, ?_, ?_, ?_, ?_⟩
  any_goals cases h
  all_goals simp

/-- A number is given out and lost again. -/
theorem skip (h : Registered ν entry issued done taken) :
    Registered ν entry (issued + 1) done taken where
  numbered i n hn := by
    obtain ⟨k, hk, rfl⟩ := h.numbered i n hn
    exact ⟨k, Nat.lt_succ_of_lt hk, rfl⟩
  inj := h.inj
  done_issued x hx := by
    obtain ⟨k, hk, hxk⟩ := h.done_issued x hx
    exact ⟨k, Nat.lt_succ_of_lt hk, hxk⟩
  active := h.active
  finished := h.finished
  kept := h.kept
  taken_done := h.taken_done
  taken_nodup := h.taken_nodup
  taken_gone := h.taken_gone

variable [DecidableEq I]

/-- A free slot gets an entry with a number that has not been given out before. -/
theorem start (h : Registered ν entry issued done taken) (hfree : entry i = .free)
    (hnew : ∀ k < issued, ν k ≠ ν issued) :
    Registered ν (Function.update entry i (.active (ν issued))) (issued + 1) done taken := by
  have hother : ∀ j, (entry j).number ≠ some (ν issued) := by
    intro j hj
    obtain ⟨k, hk, hnk⟩ := h.numbered j _ hj
    exact hnew k hk hnk.symm
  have hdone : ∀ x ∈ done, x.1 ≠ ν issued := by
    intro x hx hxn
    obtain ⟨k, hk, hxk⟩ := h.done_issued x hx
    exact hnew k hk (hxk.symm.trans hxn)
  refine ⟨fun j n hn ↦ ?_, fun j j' n hn hn' ↦ ?_, h.skip.done_issued, fun j n hn ↦ ?_,
    fun j n r hn ↦ ?_, fun n r hnr ↦ ?_, h.taken_done, h.taken_nodup, fun x hx j hj ↦ ?_⟩
  · by_cases hj : j = i
    · obtain rfl : ν issued = n := by simpa [hj, Entry.number] using hn
      exact ⟨issued, Nat.lt_succ_self issued, rfl⟩
    · exact h.skip.numbered j n (by simpa [hj] using hn)
  · by_cases hj : j = i <;> by_cases hj' : j' = i
    · rw [hj, hj']
    · obtain rfl : ν issued = n := by simpa [hj, Entry.number] using hn
      exact absurd (by simpa [hj'] using hn') (hother j')
    · obtain rfl : ν issued = n := by simpa [hj', Entry.number] using hn'
      exact absurd (by simpa [hj] using hn) (hother j)
    · exact h.inj j j' n (by simpa [hj] using hn) (by simpa [hj'] using hn')
  · by_cases hj : j = i
    · obtain rfl : ν issued = n := by simpa [hj] using hn
      exact hdone
    · exact h.active j n (by simpa [hj] using hn)
  · by_cases hj : j = i
    · simp [hj] at hn
    · exact h.finished j n r (by simpa [hj] using hn)
  · rcases h.kept n r hnr with htaken | ⟨j, hj⟩
    · exact .inl htaken
    · have hne : j ≠ i := by
        rintro rfl
        cases hfree.symm.trans hj
      exact .inr ⟨j, by simpa [hne] using hj⟩
  · by_cases hji : j = i
    · have hx' : ν issued = x.1 := by simpa [hji, Entry.number] using hj
      exact hdone x (h.taken_done x hx) hx'.symm
    · exact h.taken_gone x hx j (by simpa [hji] using hj)

theorem finish (h : Registered ν entry issued done taken) (hactive : entry i = .active n) (r : R) :
    Registered ν (Function.update entry i (.finished n r)) issued ((n, r) :: done) taken := by
  have hnumber : ∀ j, (Function.update entry i (.finished n r) j).number = (entry j).number := by
    intro j
    by_cases hj : j = i
    · subst hj
      simp [hactive, Entry.number]
    · simp [hj]
  have hmine : (entry i).number = some n := by rw [hactive, Entry.number]
  refine ⟨fun j m hm ↦ h.numbered j m (hnumber j ▸ hm),
    fun j j' m hm hm' ↦ h.inj j j' m (hnumber j ▸ hm) (hnumber j' ▸ hm'), fun x hx ↦ ?_,
    fun j m hm x hx ↦ ?_, fun j m q hm ↦ ?_, fun m q hmq ↦ ?_, fun x hx ↦ ?_, h.taken_nodup,
    fun x hx j ↦ by rw [hnumber]; exact h.taken_gone x hx j⟩
  · rcases List.mem_cons.mp hx with rfl | hx
    · exact h.numbered i n hmine
    · exact h.done_issued x hx
  · have hj : j ≠ i := by
      rintro rfl
      simp at hm
    have hm : entry j = .active m := by simpa [hj] using hm
    rcases List.mem_cons.mp hx with rfl | hx
    · rintro rfl
      exact hj (h.inj j i n (by rw [hm, Entry.number]) hmine)
    · exact h.active j m hm x hx
  · by_cases hj : j = i
    · obtain ⟨rfl, rfl⟩ : n = m ∧ r = q := by simpa [hj] using hm
      exact List.mem_cons_self
    · exact List.mem_cons_of_mem _ (h.finished j m q (by simpa [hj] using hm))
  · rcases List.mem_cons.mp hmq with hnew | hold
    · cases hnew
      exact .inr ⟨i, by simp⟩
    · rcases h.kept m q hold with htaken | ⟨j, hj⟩
      · exact .inl htaken
      · have hne : j ≠ i := by
          rintro rfl
          cases hactive.symm.trans hj
        exact .inr ⟨j, by simpa [hne] using hj⟩
  · exact List.mem_cons_of_mem _ (h.taken_done x hx)

/-- A result is taken out once. -/
theorem collect (h : Registered ν entry issued done taken) (hfinished : entry i = .finished n r) :
    Registered ν (Function.update entry i .free) issued done ((n, r) :: taken) := by
  have hmine : (entry i).number = some n := by rw [hfinished, Entry.number]
  have hold : ∀ j m, (Function.update entry i .free j).number = some m →
      j ≠ i ∧ (entry j).number = some m := by
    intro j m hm
    by_cases hj : j = i
    · simp [hj, Entry.number] at hm
    · exact ⟨hj, by simpa [hj] using hm⟩
  refine ⟨fun j m hm ↦ h.numbered j m (hold j m hm).2,
    fun j j' m hm hm' ↦ h.inj j j' m (hold j m hm).2 (hold j' m hm').2, h.done_issued,
    fun j m hm ↦ ?_, fun j m q hm ↦ ?_, fun m q hmq ↦ ?_, fun x hx ↦ ?_, ?_, fun x hx j hj ↦ ?_⟩
  · have hj : j ≠ i := by
      rintro rfl
      simp at hm
    exact h.active j m (by simpa [hj] using hm)
  · have hj : j ≠ i := by
      rintro rfl
      simp at hm
    exact h.finished j m q (by simpa [hj] using hm)
  · rcases h.kept m q hmq with htaken | ⟨j, hj⟩
    · exact .inl (List.mem_cons_of_mem _ htaken)
    · by_cases hji : j = i
      · subst hji
        cases hfinished.symm.trans hj
        exact .inl List.mem_cons_self
      · exact .inr ⟨j, by simpa [hji] using hj⟩
  · rcases List.mem_cons.mp hx with rfl | hx
    · exact h.finished i n r hfinished
    · exact h.taken_done x hx
  · rw [List.map_cons, List.nodup_cons]
    refine ⟨fun hmem ↦ ?_, h.taken_nodup⟩
    obtain ⟨x, hx, hxn⟩ := List.mem_map.mp hmem
    exact h.taken_gone x hx i (hxn ▸ hmine)
  · obtain ⟨hne, hj⟩ := hold j x.1 hj
    rcases List.mem_cons.mp hx with rfl | hx
    · exact hne (h.inj j i n hj hmine)
    · exact h.taken_gone x hx j hj

end Registered

end EnhancedXv6.Registry
