import EnhancedXv6.Lottery.Tickets
import Mathlib.Data.Int.ConditionallyCompleteOrder

/-!
# Who wins a draw

The `RUNNABLE` processes divide the winning numbers among them: in table order, each owns as many
consecutive numbers as it has tickets.  The second scan crosses the number drawn at its owner, and from
there on gives the choice to processes with as many tickets and an earlier arrival time.  So the winner
is the earliest among the processes with the tickets of the owner which stand at the owner or behind it
in the table, but not always among those before it.
-/

namespace EnhancedXv6.Lottery

open Arith Kernel

/-! ## The numbers of a process -/

/-- A table with which a lottery can be held: nobody has a negative number of tickets, and the
tickets of the `RUNNABLE` processes are positive in number and fit an `int`. -/
structure Drawable (proc : Slot → Proc) : Prop where
  nonneg : ∀ p, 0 ≤ (proc p).tickets.toInt
  pos : 0 < runnableTickets proc
  fits : runnableTickets proc < 2 ^ 31

/-- The numbers drawn: 0 to the number of tickets. -/
def Winner (proc : Slot → Proc) (winner : Int32) : Prop :=
  0 ≤ winner.toInt ∧ winner.toInt < runnableTickets proc

noncomputable def numbers (proc : Slot → Proc) (p : Slot) : Finset ℤ :=
  Finset.Ico (ticketsBefore proc p) (ticketsBefore proc (p + 1))

variable {proc : Slot → Proc} {winner : Int32} {p q : Slot} {n : ℕ}

theorem take_table_succ (p : Slot) : table.take (p + 1) = table.take p ++ [p] := by
  rw [List.take_succ_eq_append_getElem (by simp), List.getElem_finRange]
  rfl

theorem ticketsBefore_succ (p : Slot) :
    ticketsBefore proc (p + 1) = ticketsBefore proc p + (stake proc p).toInt := by
  rw [ticketsBefore, ticketsBefore, take_table_succ, List.map_append, List.sum_append]
  simp

theorem ticketsBefore_NPROC : ticketsBefore proc NPROC = runnableTickets proc := by
  rw [ticketsBefore_eq, runnableTickets_eq, List.take_of_length_le (by simp)]

namespace Drawable

variable (hproc : Drawable proc)
include hproc

theorem stake_nonneg : ∀ x ∈ table.map (stake proc), 0 ≤ x.toInt := by
  intro x hx
  obtain ⟨p, -, rfl⟩ := List.mem_map.mp hx
  unfold stake
  split
  · exact hproc.nonneg p
  · decide

theorem ticketsBefore_mono {k : ℕ} (hn : n ≤ k) : ticketsBefore proc n ≤ ticketsBefore proc k := by
  have hnonneg : ∀ x ∈ (table.map (stake proc)).take k, 0 ≤ x.toInt := fun x hx ↦
    hproc.stake_nonneg x (List.mem_of_mem_take hx)
  have hle := exactSum_take_le hnonneg n
  rwa [List.take_take, min_eq_left hn, ← ticketsBefore_eq, ← ticketsBefore_eq] at hle

theorem owner_unique {x : ℤ} (hp : x ∈ numbers proc p) (hq : x ∈ numbers proc q) : p = q := by
  rw [numbers, Finset.mem_Ico] at hp hq
  rcases lt_trichotomy p q with hlt | heq | hlt
  · have hle := hproc.ticketsBefore_mono (Nat.succ_le_of_lt hlt)
    exact absurd hq.1 (by simp only [Nat.succ_eq_add_one] at hle; omega)
  · exact heq
  · have hle := hproc.ticketsBefore_mono (Nat.succ_le_of_lt hlt)
    exact absurd hp.1 (by simp only [Nat.succ_eq_add_one] at hle; omega)

theorem card_numbers (p : Slot) : ((numbers proc p).card : ℤ) = (stake proc p).toInt := by
  have hstake := hproc.stake_nonneg (stake proc p) (List.mem_map_of_mem (List.mem_finRange p))
  rw [numbers, Int.card_Ico, ticketsBefore_succ, add_sub_cancel_left, Int.toNat_of_nonneg hstake]

theorem currentAfter_toInt (winner : Int32) (n : ℕ) :
    (currentAfter proc winner n).toInt = ticketsBefore proc n := by
  rw [currentAfter_eq, ticketsBefore_eq]
  refine (noOverflow_iff hproc.stake_nonneg).mpr ?_ n
  rw [← runnableTickets_eq]
  exact hproc.fits

theorem totalTickets_toInt : (totalTickets proc).toInt = runnableTickets proc := by
  rw [totalTickets_eq, runnableTickets_eq]
  refine toInt_wrappingSum hproc.stake_nonneg ?_
  rw [← runnableTickets_eq]
  exact hproc.fits

end Drawable

theorem runnable_of_mem_numbers {x : ℤ} (hx : x ∈ numbers proc p) :
    (proc p).state = .runnable ∧ 0 < (proc p).tickets.toInt := by
  rw [numbers, Finset.mem_Ico, ticketsBefore_succ] at hx
  unfold stake at hx
  split at hx
  · rename_i hrunnable
    exact ⟨hrunnable, by omega⟩
  · have hzero : (0 : Int32).toInt = 0 := rfl
    omega

/-! ## The second scan -/

/-- The processes that compete for a number of `owner` when the scan has visited `n` slots: those
with as many tickets, at the owner or behind it. -/
def Rival (proc : Slot → Proc) (owner : Slot) (n : ℕ) (q : Slot) : Prop :=
  owner ≤ q ∧ q.val < n ∧ (proc q).state = .runnable ∧ (proc q).tickets = (proc owner).tickets

/-- The choice after `n` slots: nobody while the number drawn has not been crossed, then the
earliest of the rivals. -/
def Chosen (proc : Slot → Proc) (winner : Int32) (n : ℕ) : Option Slot → Prop
  | none => ticketsBefore proc n ≤ winner.toInt
  | some p => ∃ owner, winner.toInt ∈ numbers proc owner ∧ Rival proc owner n p ∧
      ∀ q, Rival proc owner n q → (proc p).startTimeLbs ≤ (proc q).startTimeLbs

theorem Rival.mono {owner : Slot} {k : ℕ} (hq : Rival proc owner n q) (hn : n ≤ k) :
    Rival proc owner k q :=
  ⟨hq.1, hq.2.1.trans_le hn, hq.2.2⟩

theorem Chosen.skip {c : Slot} (hc : Chosen proc winner p (some c))
    (hp : ∀ owner, winner.toInt ∈ numbers proc owner → Rival proc owner (p + 1) p →
      (proc c).startTimeLbs ≤ (proc p).startTimeLbs) :
    Chosen proc winner (p + 1) (some c) := by
  obtain ⟨owner, howner, hrival, hleast⟩ := hc
  refine ⟨owner, howner, hrival.mono (Nat.le_succ _), fun q hq ↦ ?_⟩
  rcases Nat.lt_succ_iff_lt_or_eq.mp hq.2.1 with hlt | heq
  · exact hleast q ⟨hq.1, hlt, hq.2.2⟩
  · obtain rfl : q = p := Fin.ext heq
    exact hp owner howner hq

theorem Chosen.replace {c : Slot} (hc : Chosen proc winner p (some c))
    (hrunnable : (proc p).state = .runnable) (htickets : (proc c).tickets = (proc p).tickets)
    (hearlier : (proc p).startTimeLbs < (proc c).startTimeLbs) :
    Chosen proc winner (p + 1) (some p) := by
  obtain ⟨owner, howner, hrival, hleast⟩ := hc
  have hbehind : owner ≤ p := hrival.1.trans (Fin.le_def.mpr hrival.2.1.le)
  refine ⟨owner, howner, ⟨hbehind, Nat.lt_succ_self _, hrunnable,
    htickets.symm.trans hrival.2.2.2⟩, fun q hq ↦ ?_⟩
  rcases Nat.lt_succ_iff_lt_or_eq.mp hq.2.1 with hlt | heq
  · exact Int32.le_of_lt (Int32.lt_of_lt_of_le hearlier (hleast q ⟨hq.1, hlt, hq.2.2⟩))
  · obtain rfl : q = p := Fin.ext heq
    exact Int32.le_refl _

/-- The choice passes over from nobody to the owner of the number. -/
theorem Chosen.cross (hbefore : ticketsBefore proc p ≤ winner.toInt)
    (hafter : winner.toInt < ticketsBefore proc (p + 1)) :
    Chosen proc winner (p + 1) (some p) := by
  have hmem : winner.toInt ∈ numbers proc p := Finset.mem_Ico.mpr ⟨hbefore, hafter⟩
  refine ⟨p, hmem, ⟨le_refl p, Nat.lt_succ_self _, (runnable_of_mem_numbers hmem).1, rfl⟩,
    fun q hq ↦ ?_⟩
  obtain rfl : q = p := le_antisymm (Fin.le_def.mpr (Nat.le_of_lt_succ hq.2.1)) hq.1
  exact Int32.le_refl _

theorem Drawable.chosen_drawStep (hproc : Drawable proc) {d : Draw} (p : Slot)
    (hnext : (drawStep proc winner d p).currentTickets.toInt = ticketsBefore proc (p + 1))
    (hd : Chosen proc winner p d.chosen) :
    Chosen proc winner (p + 1) (drawStep proc winner d p).chosen := by
  rw [drawStep_currentTickets] at hnext
  unfold drawStep
  by_cases hrunnable : (proc p).state = .runnable
  · have hstake : stake proc p = (proc p).tickets := if_pos hrunnable
    rw [hstake] at hnext
    rw [if_pos hrunnable]
    dsimp only
    have hcross : d.currentTickets + (proc p).tickets > winner ↔
        winner.toInt < ticketsBefore proc (p + 1) := by
      rw [← hnext]
      exact Int32.lt_iff_toInt_lt
    cases hchosen : d.chosen with
    | none =>
      rw [hchosen] at hd
      by_cases hwins : winner.toInt < ticketsBefore proc (p + 1)
      · rw [if_pos ⟨hcross.mpr hwins, rfl⟩]
        exact .cross hd hwins
      · rw [if_neg fun h ↦ hwins (hcross.mp h.1)]
        exact Int.not_lt.mp hwins
    | some c =>
      rw [hchosen] at hd
      have hwins : winner.toInt < ticketsBefore proc (p + 1) := by
        obtain ⟨owner, howner, hrival, -⟩ := hd
        have hle : owner.val + 1 ≤ p + 1 := by
          have := Fin.le_def.mp hrival.1
          have := hrival.2.1
          omega
        exact (Finset.mem_Ico.mp howner).2.trans_le (hproc.ticketsBefore_mono hle)
      by_cases hreplaces : replaces proc (some c) p = true
      · rw [if_pos ⟨hcross.mpr hwins, hreplaces⟩]
        have htie := of_decide_eq_true hreplaces
        exact hd.replace hrunnable htie.1 htie.2
      · rw [if_neg fun h ↦ hreplaces h.2]
        refine hd.skip fun owner howner hrival ↦ Int32.not_lt.mp fun hlt ↦ hreplaces ?_
        obtain ⟨owner', howner', hrival', -⟩ := hd
        obtain rfl := hproc.owner_unique howner howner'
        exact decide_eq_true ⟨hrival'.2.2.2.trans hrival.2.2.2.symm, hlt⟩
  · rw [if_neg hrunnable]
    have hstake : stake proc p = 0 := if_neg hrunnable
    have hsame : ticketsBefore proc (p + 1) = ticketsBefore proc p := by
      rw [ticketsBefore_succ, hstake]
      exact add_zero _
    cases hchosen : d.chosen with
    | none =>
      rw [hchosen] at hd
      exact hsame.trans_le hd
    | some c =>
      rw [hchosen] at hd
      exact hd.skip fun owner _ hrival ↦ absurd hrival.2.2.1 hrunnable

theorem Drawable.chosen_draw (hproc : Drawable proc) (hwinner : 0 ≤ winner.toInt) :
    Chosen proc winner NPROC (draw proc winner).chosen := by
  have hscan : ∀ n ≤ NPROC, Chosen proc winner n
      ((table.take n).foldl (drawStep proc winner) {}).chosen := by
    intro n hn
    induction n with
    | zero => exact hwinner
    | succ n ih =>
      have hlt : n < NPROC := hn
      have htake : table.take (n + 1) = table.take n ++ [⟨n, hlt⟩] := take_table_succ ⟨n, hlt⟩
      have hnext := hproc.currentAfter_toInt winner (n + 1)
      rw [currentAfter, htake, List.foldl_append, List.foldl_cons, List.foldl_nil] at hnext
      rw [htake, List.foldl_append, List.foldl_cons, List.foldl_nil]
      exact hproc.chosen_drawStep ⟨n, hlt⟩ hnext (ih (by omega))
  have hall := hscan NPROC le_rfl
  rwa [List.take_of_length_le (by simp)] at hall

/-- A draw gives the win to the earliest rival of the owner. -/
theorem Drawable.draw_spec (hproc : Drawable proc) (hwinner : Winner proc winner) :
    ∃ p owner, (draw proc winner).chosen = some p ∧ winner.toInt ∈ numbers proc owner ∧
      Rival proc owner NPROC p ∧
      ∀ q, Rival proc owner NPROC q → (proc p).startTimeLbs ≤ (proc q).startTimeLbs := by
  have hdraw := hproc.chosen_draw hwinner.1
  cases hchosen : (draw proc winner).chosen with
  | none =>
    rw [hchosen, Chosen, ticketsBefore_NPROC] at hdraw
    exact absurd hwinner.2 (not_lt.mpr hdraw)
  | some p =>
    rw [hchosen] at hdraw
    obtain ⟨owner, howner, hrival, hleast⟩ := hdraw
    exact ⟨p, owner, rfl, howner, hrival, hleast⟩

/-! ## Proportionality -/

/-- The winning numbers for which a process with `t` tickets is chosen. -/
noncomputable def wonWith (proc : Slot → Proc) (t : Int32) : Finset ℤ :=
  {x ∈ Finset.Ico 0 (runnableTickets proc) |
    ∃ p, (draw proc (Int32.ofInt x)).chosen = some p ∧ (proc p).tickets = t}

def holders (proc : Slot → Proc) (t : Int32) : Finset Slot :=
  {p | (proc p).state = .runnable ∧ (proc p).tickets = t}

theorem Drawable.toInt_ofInt (hproc : Drawable proc) {x : ℤ}
    (hx : x ∈ Finset.Ico 0 (runnableTickets proc)) : (Int32.ofInt x).toInt = x := by
  have hfits := hproc.fits
  rw [Finset.mem_Ico] at hx
  exact Int32.toInt_ofInt_of_le (by omega) (by omega)

theorem Drawable.winner_ofInt (hproc : Drawable proc) {x : ℤ}
    (hx : x ∈ Finset.Ico 0 (runnableTickets proc)) : Winner proc (Int32.ofInt x) := by
  rw [Winner, hproc.toInt_ofInt hx]
  exact Finset.mem_Ico.mp hx

theorem Drawable.numbers_subset (hproc : Drawable proc) (p : Slot) :
    numbers proc p ⊆ Finset.Ico 0 (runnableTickets proc) := by
  have hfirst : ticketsBefore proc 0 = 0 := rfl
  have hle := hproc.ticketsBefore_mono (Nat.zero_le p)
  have hlast := hproc.ticketsBefore_mono (Nat.succ_le_of_lt p.isLt)
  rw [ticketsBefore_NPROC] at hlast
  exact Finset.Ico_subset_Ico (by omega) hlast

/-- The numbers won with `t` tickets are those owned with `t` tickets. -/
theorem Drawable.wonWith_eq (hproc : Drawable proc) (t : Int32) :
    wonWith proc t = (holders proc t).biUnion (numbers proc) := by
  ext x
  rw [wonWith, Finset.mem_filter, Finset.mem_biUnion]
  constructor
  · rintro ⟨hx, p, hchosen, htickets⟩
    obtain ⟨p', owner, hchosen', howner, hrival, -⟩ := hproc.draw_spec (hproc.winner_ofInt hx)
    obtain rfl := Option.some.inj (hchosen.symm.trans hchosen')
    rw [hproc.toInt_ofInt hx] at howner
    refine ⟨owner, Finset.mem_filter.mpr ⟨Finset.mem_univ _, ?_, ?_⟩, howner⟩
    · exact (runnable_of_mem_numbers howner).1
    · exact hrival.2.2.2.symm.trans htickets
  · rintro ⟨q, hq, hx⟩
    have hmem := hproc.numbers_subset q hx
    obtain ⟨p, owner, hchosen, howner, hrival, -⟩ := hproc.draw_spec (hproc.winner_ofInt hmem)
    rw [hproc.toInt_ofInt hmem] at howner
    obtain rfl := hproc.owner_unique hx howner
    refine ⟨hmem, p, hchosen, hrival.2.2.2.trans ?_⟩
    exact (Finset.mem_filter.mp hq).2.2

/-- Among the winning numbers, exactly `t` times the number of `RUNNABLE` processes with `t` tickets
choose a process with `t` tickets; every number chooses a `RUNNABLE` process with a ticket. -/
theorem lottery_proportional (hproc : Drawable proc) :
    (∀ t : Int32, ((wonWith proc t).card : ℤ) = t.toInt * (holders proc t).card) ∧
    ∀ winner, Winner proc winner → ∃ p, (draw proc winner).chosen = some p ∧
      (proc p).state = .runnable ∧ (proc p).tickets ≠ 0 := by
  constructor
  · intro t
    have hdisjoint : ((holders proc t : Finset Slot) : Set Slot).PairwiseDisjoint (numbers proc) := by
      intro p _ q _ hne
      rw [Function.onFun, Finset.disjoint_left]
      exact fun x hp hq ↦ hne (hproc.owner_unique hp hq)
    have hstake : ∀ p ∈ holders proc t, ((numbers proc p).card : ℤ) = t.toInt := by
      intro p hp
      obtain ⟨hrunnable, htickets⟩ := (Finset.mem_filter.mp hp).2
      rw [hproc.card_numbers, stake, if_pos hrunnable, htickets]
    calc
      ((wonWith proc t).card : ℤ) = ∑ p ∈ holders proc t, ((numbers proc p).card : ℤ) := by
        rw [hproc.wonWith_eq, Finset.card_biUnion hdisjoint, Nat.cast_sum]
      _ = ∑ p ∈ holders proc t, t.toInt := Finset.sum_congr rfl hstake
      _ = t.toInt * (holders proc t).card := by
        rw [Finset.sum_const, nsmul_eq_mul, mul_comm]
  · intro winner hwinner
    obtain ⟨p, owner, hchosen, howner, hrival, -⟩ := hproc.draw_spec hwinner
    refine ⟨p, hchosen, hrival.2.2.1, fun hzero ↦ ?_⟩
    have hpos := (runnable_of_mem_numbers howner).2
    rw [← hrival.2.2.2, hzero] at hpos
    exact absurd hpos (by decide)

/-- A table with three `RUNNABLE` processes, given by their tickets and arrival times. -/
def threeHolders (tickets startTimeLbs : Fin 3 → Int32) (p : Slot) : Proc :=
  if h : p.val < 3 then
    { state := .runnable, tickets := tickets ⟨p, h⟩, startTimeLbs := startTimeLbs ⟨p, h⟩ }
  else {}

theorem lottery_proportional_threeHolders :
    Drawable (threeHolders ![2, 1, 2] ![7, 8, 4]) ∧
      ((wonWith (threeHolders ![2, 1, 2] ![7, 8, 4]) 2).card : ℤ) = 2 * 2 := by
  have hproc : Drawable (threeHolders ![2, 1, 2] ![7, 8, 4]) :=
    ⟨by decide +kernel, by decide +kernel, by decide +kernel⟩
  have hholders : (holders (threeHolders ![2, 1, 2] ![7, 8, 4]) 2).card = 2 := by decide +kernel
  have hcard := (lottery_proportional hproc).1 2
  rw [hholders] at hcard
  exact ⟨hproc, hcard⟩

/-! ## The tie-break -/

/-- `p` arrived first among the `RUNNABLE` processes with as many tickets. -/
def Earliest (proc : Slot → Proc) (p : Slot) : Prop :=
  ∀ q, (proc q).state = .runnable → (proc q).tickets = (proc p).tickets →
    (proc p).startTimeLbs ≤ (proc q).startTimeLbs

/-- Every `RUNNABLE` process that stands before the owner of the number and has as many tickets is
matched by one at the owner or behind it that arrived no later. -/
def Matched (proc : Slot → Proc) (winner : Int32) : Prop :=
  ∀ owner, winner.toInt ∈ numbers proc owner → ∀ q < owner, (proc q).state = .runnable →
    (proc q).tickets = (proc owner).tickets →
      ∃ r, Rival proc owner NPROC r ∧ (proc r).startTimeLbs ≤ (proc q).startTimeLbs

/-- The process chosen arrived first among those with as many tickets if and only if no earlier one
stands before the owner of the number. -/
theorem earliest_chosen_iff (hproc : Drawable proc) (hwinner : Winner proc winner) :
    (∃ p, (draw proc winner).chosen = some p ∧ Earliest proc p) ↔ Matched proc winner := by
  obtain ⟨p, owner, hchosen, howner, hrival, hleast⟩ := hproc.draw_spec hwinner
  constructor
  · rintro ⟨p', hchosen', hearliest⟩ owner' howner' q hq hrunnable htickets
    obtain rfl := Option.some.inj (hchosen.symm.trans hchosen')
    obtain rfl := hproc.owner_unique howner howner'
    exact ⟨p, hrival, hearliest q hrunnable (htickets.trans hrival.2.2.2.symm)⟩
  · intro hmatched
    refine ⟨p, hchosen, fun q hrunnable htickets ↦ ?_⟩
    have howned := htickets.trans hrival.2.2.2
    rcases lt_or_ge q owner with hlt | hge
    · obtain ⟨r, hr, hle⟩ := hmatched owner howner q hlt hrunnable howned
      exact Int32.le_trans (hleast r hr) hle
    · exact hleast q ⟨hge, q.isLt, hrunnable, howned⟩

theorem earliest_chosen_iff_threeHolders :
    (Drawable (threeHolders ![2, 1, 2] ![7, 8, 4]) ∧
      Winner (threeHolders ![2, 1, 2] ![7, 8, 4]) 0) ∧
    ((∃ p, (draw (threeHolders ![2, 1, 2] ![7, 8, 4]) 0).chosen = some p ∧
        Earliest (threeHolders ![2, 1, 2] ![7, 8, 4]) p) ↔
      Matched (threeHolders ![2, 1, 2] ![7, 8, 4]) 0) := by
  have hproc : Drawable (threeHolders ![2, 1, 2] ![7, 8, 4]) :=
    ⟨by decide +kernel, by decide +kernel, by decide +kernel⟩
  have hwinner : Winner (threeHolders ![2, 1, 2] ![7, 8, 4]) 0 :=
    ⟨by decide +kernel, by decide +kernel⟩
  exact ⟨⟨hproc, hwinner⟩, earliest_chosen_iff hproc hwinner⟩

/-- The number 3 belongs to the process of slot 2, which arrived after the one of slot 0 with as
many tickets, and is chosen. -/
theorem later_arrival_chosen :
    Drawable (threeHolders ![2, 1, 2] ![4, 8, 7]) ∧
    Winner (threeHolders ![2, 1, 2] ![4, 8, 7]) 3 ∧
    (draw (threeHolders ![2, 1, 2] ![4, 8, 7]) 3).chosen = some 2 ∧
    ¬ Earliest (threeHolders ![2, 1, 2] ![4, 8, 7]) 2 := by
  refine ⟨⟨by decide +kernel, by decide +kernel, by decide +kernel⟩,
    ⟨by decide +kernel, by decide +kernel⟩, by decide +kernel, fun hearliest ↦ ?_⟩
  exact absurd (hearliest 0 rfl rfl) (by decide)

/-! ## The range of the generator -/

theorem exists_rand (v : Fin 32768) : ∃ next, (rand next).1.toInt = v := by
  have hcard := card_returned 0 0 v
  obtain ⟨n, hn⟩ := Finset.card_pos.mp (hcard ▸ (by decide : 0 < 65536))
  exact ⟨generator 0 n, (Finset.mem_filter.mp hn).2⟩

theorem rand_lt (next : UInt64) : (rand next).1.toInt < 32768 := by
  rw [rand_toInt]
  omega

/-- A process that shares its number of tickets with nobody is chosen for its own numbers. -/
theorem Drawable.chosen_iff (hproc : Drawable proc) (hwinner : Winner proc winner)
    (halone : ∀ q, (proc q).state = .runnable → (proc q).tickets = (proc p).tickets → q = p) :
    (draw proc winner).chosen = some p ↔ winner.toInt ∈ numbers proc p := by
  obtain ⟨c, owner, hchosen, howner, hrival, -⟩ := hproc.draw_spec hwinner
  rw [hchosen]
  constructor
  · intro hc
    obtain rfl := Option.some.inj hc
    obtain rfl := halone owner (runnable_of_mem_numbers howner).1 hrival.2.2.2.symm
    exact howner
  · intro hp
    obtain rfl := hproc.owner_unique hp howner
    rw [halone c hrival.2.2.1 hrival.2.2.2]

theorem Drawable.choose_eq {s : State} (hproc : Drawable s.proc) (next : UInt64) :
    (choose (s.setNext next)).1 =
      (draw s.proc ((rand next).1 % totalTickets s.proc)).chosen ∧
    ((rand next).1 % totalTickets s.proc).toInt =
      (rand next).1.toInt % runnableTickets s.proc := by
  have htotal := hproc.totalTickets_toInt
  have hpos : totalTickets s.proc > 0 := by
    rw [gt_iff_lt, Int32.lt_iff_toInt_lt, htotal]
    exact hproc.pos
  constructor
  · simp [choose, State.setNext, hpos]
  · rw [Int32.toInt_mod, htotal, Int.tmod_eq_emod_of_nonneg (rand_nonneg next)]

section Alone

variable {s : State} (hproc : Drawable s.proc)
  (halone : ∀ q, (s.proc q).state = .runnable → (s.proc q).tickets = (s.proc p).tickets → q = p)
include hproc halone

theorem Drawable.choose_iff (next : UInt64) : (choose (s.setNext next)).1 = some p ↔
    (rand next).1.toInt % runnableTickets s.proc ∈ numbers s.proc p := by
  obtain ⟨hchoose, hvalue⟩ := hproc.choose_eq next
  have hwinner : Winner s.proc ((rand next).1 % totalTickets s.proc) := by
    rw [Winner, hvalue]
    exact ⟨Int.emod_nonneg _ hproc.pos.ne', Int.emod_lt_of_pos _ hproc.pos⟩
  rw [hchoose, ← hvalue]
  exact hproc.chosen_iff hwinner halone

/-- No value of the generator reaches the tickets behind the first 32768. -/
theorem Drawable.ticketsBefore_le (next : UInt64) (hchoose : (choose (s.setNext next)).1 = some p) :
    ticketsBefore s.proc p ≤ 32767 := by
  have hmem := Finset.mem_Ico.mp ((hproc.choose_iff halone next).mp hchoose)
  have hmod : (rand next).1.toInt % runnableTickets s.proc ≤ (rand next).1.toInt := by
    have hdiv := Int.ediv_nonneg (rand_nonneg next) hproc.pos.le
    rw [Int.emod_def]
    exact Int.sub_le_self _ (Int.mul_nonneg hproc.pos.le hdiv)
  have hlt := rand_lt next
  omega

end Alone

/-- A `RUNNABLE` process with a ticket that shares its number of tickets with nobody can win if and
only if at most 32767 tickets stand before its own. -/
theorem can_win_iff {s : State} (hproc : Drawable s.proc) (hrunnable : (s.proc p).state = .runnable)
    (hticket : 0 < (s.proc p).tickets.toInt)
    (halone : ∀ q, (s.proc q).state = .runnable → (s.proc q).tickets = (s.proc p).tickets → q = p) :
    (∃ next, (choose (s.setNext next)).1 = some p) ↔ ticketsBefore s.proc p ≤ 32767 := by
  constructor
  · rintro ⟨next, hchoose⟩
    exact hproc.ticketsBefore_le halone next hchoose
  · intro hle
    have hmem : ticketsBefore s.proc p ∈ numbers s.proc p := by
      rw [numbers, Finset.mem_Ico, ticketsBefore_succ, stake, if_pos hrunnable]
      omega
    have hrange := Finset.mem_Ico.mp (hproc.numbers_subset p hmem)
    obtain ⟨next, hnext⟩ := exists_rand ⟨(ticketsBefore s.proc p).toNat, by omega⟩
    have hvalue : (rand next).1.toInt = ticketsBefore s.proc p :=
      hnext.trans (Int.toNat_of_nonneg hrange.1)
    refine ⟨next, (hproc.choose_iff halone next).mpr ?_⟩
    rwa [hvalue, Int.emod_eq_of_lt hrange.1 hrange.2]

def threeReady (tickets startTimeLbs : Fin 3 → Int32) : State :=
  { userinit .lbs with proc := threeHolders tickets startTimeLbs }

theorem can_win_iff_threeReady :
    (∃ next, (choose ((threeReady ![3, 1, 2] ![4, 8, 7]).setNext next)).1 = some 2) ↔
      ticketsBefore (threeReady ![3, 1, 2] ![4, 8, 7]).proc 2 ≤ 32767 :=
  can_win_iff ⟨by decide +kernel, by decide +kernel, by decide +kernel⟩ rfl (by decide)
    (by decide +kernel)

/-- The ticket behind 32768 others never wins. -/
theorem last_ticket_never_wins :
    Drawable (threeReady ![32768, 1, 0] ![4, 8, 7]).proc ∧
    ((threeReady ![32768, 1, 0] ![4, 8, 7]).proc 1).state = .runnable ∧
    ((threeReady ![32768, 1, 0] ![4, 8, 7]).proc 1).tickets = 1 ∧
    (∀ q, ((threeReady ![32768, 1, 0] ![4, 8, 7]).proc q).state = .runnable →
      ((threeReady ![32768, 1, 0] ![4, 8, 7]).proc q).tickets =
        ((threeReady ![32768, 1, 0] ![4, 8, 7]).proc 1).tickets → q = 1) ∧
    ∀ next, (choose ((threeReady ![32768, 1, 0] ![4, 8, 7]).setNext next)).1 ≠ some 1 := by
  have hproc : Drawable (threeReady ![32768, 1, 0] ![4, 8, 7]).proc :=
    ⟨by decide +kernel, by decide +kernel, by decide +kernel⟩
  have halone : ∀ q, ((threeReady ![32768, 1, 0] ![4, 8, 7]).proc q).state = .runnable →
      ((threeReady ![32768, 1, 0] ![4, 8, 7]).proc q).tickets =
        ((threeReady ![32768, 1, 0] ![4, 8, 7]).proc 1).tickets → q = 1 := by decide +kernel
  have hbefore : ticketsBefore (threeReady ![32768, 1, 0] ![4, 8, 7]).proc 1 = 32768 := by
    decide +kernel
  refine ⟨hproc, rfl, rfl, halone, fun next hchoose ↦ ?_⟩
  have hle := hproc.ticketsBefore_le halone next hchoose
  exact absurd (hbefore ▸ hle) (by decide)

end EnhancedXv6.Lottery
