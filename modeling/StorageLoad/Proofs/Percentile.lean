import Mathlib.Algebra.Order.Floor.Semiring
import Mathlib.Data.List.Sort
import StorageLoad.Proofs.Exact
import StorageLoad.Proofs.Latency

/-!
Summaries of latencies, reckoned in exact rationals.  A histogram, each latency written out as
often as it was reported, is the sorted list of the reports, in which the scan finds the latency
at a rank; so a summary tells the order statistics, whatever order the reports come in
(`summary_exact`).
-/

namespace StorageLoad

namespace Histogram

section Ascending

variable {h : Histogram}

theorem pairwise_spread (hsorted : h.IsSorted) : (spread h.entries).Pairwise (· ≤ ·) := by
  refine List.pairwise_flatMap.mpr ⟨fun e _ => ?_, hsorted.imp fun hlt x hx y hy => ?_⟩
  · exact List.pairwise_replicate.mpr (.inr (le_refl _))
  · rw [List.eq_of_mem_replicate hx, List.eq_of_mem_replicate hy]
    exact hlt.le

/-- Counts the operations with some latencies. -/
def reportAll (h : Histogram) (latencies : List Nat) : Histogram :=
  latencies.foldl (fun h latency => h.report latency) h

theorem isSorted_reportAll (hsorted : h.IsSorted) (latencies : List Nat) :
    (h.reportAll latencies).IsSorted := by
  induction latencies generalizing h with
  | nil => exact hsorted
  | cons latency latencies ih => exact ih (hsorted.insert _ _)

theorem spread_reportAll (hsorted : h.IsSorted) (latencies : List Nat) :
    (spread (h.reportAll latencies).entries).Perm
      (latencies.map Nat.cast ++ spread h.entries) := by
  induction latencies generalizing h with
  | nil => exact .refl _
  | cons latency latencies ih =>
      calc
        List.Perm _ (latencies.map Nat.cast ++ spread (h.report latency).entries) :=
          ih (hsorted.insert _ _)
        List.Perm _ (latencies.map Nat.cast ++ (latency : Int) :: spread h.entries) :=
            (spread_report hsorted latency).append_left _
        List.Perm _ ((latency :: latencies).map Nat.cast ++ spread h.entries) := List.perm_middle

end Ascending

section Rank

variable {threshold : ℚ} {before : Nat} {entries : List (Int × Nat)} {latency : Int}

theorem reaching_running (hbefore : before < ⌈threshold⌉₊) (hlatency : latency ≠ placeholder)
    (h : (spread entries)[⌈threshold⌉₊ - before - 1]? = some latency) :
    reaching threshold (running before entries) = .ok latency := by
  induction entries generalizing before with
  | nil => cases h
  | cons e entries ih =>
      obtain ⟨l, count⟩ := e
      have hspread : spread ((l, count) :: entries) = List.replicate count l ++ spread entries :=
        rfl
      have hstep : reaching threshold (running before ((l, count) :: entries)) =
          if threshold ≤ (((before + count : Nat) : Int) : ℚ) ∧ l ≠ placeholder then .ok l
          else reaching threshold (running (before + count) entries) := rfl
      have hreached : threshold ≤ (((before + count : Nat) : Int) : ℚ) ↔
          ⌈threshold⌉₊ ≤ before + count := by
        rw [Int.cast_natCast, Nat.ceil_le]
      rw [hspread] at h
      rw [hstep]
      -- The rank falls on a copy of the first latency, or on an entry behind it.
      by_cases hrank : ⌈threshold⌉₊ ≤ before + count
      · rw [List.getElem?_append_left (by rw [List.length_replicate]; omega),
          List.getElem?_replicate_of_lt (by omega)] at h
        obtain rfl := Option.some.inj h
        rw [if_pos ⟨hreached.mpr hrank, hlatency⟩]
      · rw [List.getElem?_append_right (by rw [List.length_replicate]; omega),
          List.length_replicate] at h
        have hrest : ⌈threshold⌉₊ - before - 1 - count =
            ⌈threshold⌉₊ - (before + count) - 1 := by omega
        rw [hrest] at h
        rw [if_neg fun hboth => hrank (hreached.mp hboth.1)]
        exact ih (by omega) h

end Rank

section OrderStatistics

/-- The latency at a rank, rounded up, among the sorted latencies. -/
def AtRank (latencies : List Nat) (rank : ℚ) (latency : Int) : Prop :=
  ∃ l : Nat, latencies.mergeSort[⌈rank⌉₊ - 1]? = some l ∧ latency = l

/-- The number of latencies, their average, and three of their order statistics. -/
structure Summary.Describes (s : Summary ℚ) (latencies : List Nat) : Prop where
  count : s.count = latencies.length
  average : s.average = (latencies.sum : ℚ) / latencies.length
  median : AtRank latencies (latencies.length / 2) s.median
  ninety : AtRank latencies (9 * latencies.length / 10) s.ninety
  ninetyNine : AtRank latencies (99 * latencies.length / 100) s.ninetyNine

variable {latencies : List Nat} {rank later : ℚ} {latency other : Int} {h : Histogram}

theorem AtRank.exists_mem (hat : AtRank latencies rank latency) :
    ∃ l ∈ latencies, latency = l := by
  obtain ⟨l, hl, hlatency⟩ := hat
  exact ⟨l, List.mem_mergeSort.mp (List.mem_of_getElem? hl), hlatency⟩

theorem AtRank.le (hat : AtRank latencies rank latency) (hlater : AtRank latencies later other)
    (hle : rank ≤ later) : latency ≤ other := by
  obtain ⟨l, hl, rfl⟩ := hat
  obtain ⟨m, hm, rfl⟩ := hlater
  have hindex : ⌈rank⌉₊ - 1 ≤ ⌈later⌉₊ - 1 := Nat.sub_le_sub_right (Nat.ceil_mono hle) 1
  obtain ⟨hi, rfl⟩ := List.getElem?_eq_some_iff.mp hl
  obtain ⟨hj, rfl⟩ := List.getElem?_eq_some_iff.mp hm
  rcases hindex.eq_or_lt with heq | hlt
  · simp only [heq, le_refl]
  · exact Int.ofNat_le.mpr
      (List.pairwise_iff_getElem.mp List.sortedLE_mergeSort.pairwise _ _ hi hj hlt)

theorem Summary.Describes.ascending {s : Summary ℚ} (hs : s.Describes latencies) :
    s.median ≤ s.ninety ∧ s.ninety ≤ s.ninetyNine := by
  have hlength : (0 : ℚ) ≤ latencies.length := Nat.cast_nonneg _
  constructor
  · exact hs.median.le hs.ninety (by linarith)
  · exact hs.ninety.le hs.ninetyNine (by linarith)

/-- The histogram of some latencies. -/
def ofLatencies (latencies : List Nat) : Histogram :=
  reportAll Table.empty latencies

theorem spread_ofLatencies_perm (latencies : List Nat) :
    (spread (ofLatencies latencies).entries).Perm (latencies.map Nat.cast) :=
  (spread_reportAll List.Pairwise.nil latencies).trans (.of_eq (List.append_nil _))

theorem spread_ofLatencies (latencies : List Nat) :
    spread (ofLatencies latencies).entries = latencies.mergeSort.map Nat.cast := by
  have hsorted : (ofLatencies latencies).IsSorted :=
    isSorted_reportAll List.Pairwise.nil latencies
  have hmerged : latencies.mergeSort.Perm latencies := List.mergeSort_perm latencies _
  have hperm := (spread_ofLatencies_perm latencies).trans (hmerged.map Nat.cast).symm
  refine hperm.eq_of_pairwise (fun _ _ _ _ => le_antisymm) (pairwise_spread hsorted) ?_
  exact List.pairwise_map.mpr (List.sortedLE_mergeSort.pairwise.imp Int.ofNat_le.mpr)

theorem total_ofLatencies (latencies : List Nat) :
    (ofLatencies latencies).total = latencies.length := by
  rw [total_eq_length, (spread_ofLatencies_perm latencies).length_eq, List.length_map]

theorem sum_ofLatencies (latencies : List Nat) : (ofLatencies latencies).sum = latencies.sum := by
  rw [sum_eq_sum, (spread_ofLatencies_perm latencies).sum_eq, Nat.cast_list_sum]

theorem AtRank.ne_placeholder (hat : AtRank latencies rank latency) : latency ≠ placeholder := by
  obtain ⟨l, -, rfl⟩ := hat.exists_mem
  exact (Int.negSucc_lt_zero 0).trans_le (Int.natCast_nonneg l) |>.ne'

/-- The scan comes to a latency at every rank that there is. -/
theorem exists_reaching (latencies : List Nat) (rank : ℚ) (hpos : 0 < rank)
    (hle : rank ≤ latencies.length) :
    ∃ latency, reaching rank (running 0 (ofLatencies latencies).entries) = .ok latency ∧
      AtRank latencies rank latency := by
  have hceil : 0 < ⌈rank⌉₊ := Nat.ceil_pos.mpr hpos
  have hrank : ⌈rank⌉₊ ≤ latencies.length := Nat.ceil_le.mpr hle
  have hindex : ⌈rank⌉₊ - 1 < latencies.mergeSort.length := by
    rw [List.length_mergeSort]
    omega
  have hat : AtRank latencies rank (latencies.mergeSort[⌈rank⌉₊ - 1] : Nat) :=
    ⟨_, List.getElem?_eq_getElem hindex, rfl⟩
  refine ⟨_, reaching_running hceil hat.ne_placeholder ?_, hat⟩
  rw [spread_ofLatencies, List.getElem?_map, Nat.sub_zero, List.getElem?_eq_getElem hindex]
  rfl

theorem summary_eq {median ninety ninetyNine : Int} (htotal : h.total ≠ 0)
    (hmedian : reaching ((h.total : ℚ) / 2) (running 0 h.entries) = .ok median)
    (hninety : reaching (9 * (h.total : ℚ) / 10) (running 0 h.entries) = .ok ninety)
    (hninetyNine : reaching (99 * (h.total : ℚ) / 100) (running 0 h.entries) = .ok ninetyNine) :
    h.summary = .ok ⟨h.total, (h.sum : ℚ) / h.total, median, ninety, ninetyNine⟩ := by
  have htenths : (h.total : ℚ) * 0.9 = 9 * h.total / 10 := by ring
  have hhundredths : (h.total : ℚ) * 0.99 = 99 * h.total / 100 := by ring
  rw [← htenths] at hninety
  rw [← hhundredths] at hninetyNine
  rw [summary]
  simp only [htotal, if_false]
  change (do
    let median ← reaching ((h.total : ℚ) / 2) (running 0 h.entries)
    let ninety ← reaching ((h.total : ℚ) * 0.9) (running 0 h.entries)
    let ninetyNine ← reaching ((h.total : ℚ) * 0.99) (running 0 h.entries)
    return (⟨h.total, (h.sum : ℚ) / h.total, median, ninety, ninetyNine⟩ : Summary ℚ)) = _
  rw [hmedian, hninety, hninetyNine]
  rfl

theorem exists_summary (hne : latencies ≠ []) :
    ∃ s : Summary ℚ, (ofLatencies latencies).summary = .ok s ∧ s.Describes latencies := by
  have hlength : (1 : ℚ) ≤ latencies.length := by exact_mod_cast List.length_pos_iff.mpr hne
  obtain ⟨median, hmedian, hmedian'⟩ :=
    exists_reaching latencies (latencies.length / 2) (by linarith) (by linarith)
  obtain ⟨ninety, hninety, hninety'⟩ :=
    exists_reaching latencies (9 * latencies.length / 10) (by linarith) (by linarith)
  obtain ⟨ninetyNine, hninetyNine, hninetyNine'⟩ :=
    exists_reaching latencies (99 * latencies.length / 100) (by linarith) (by linarith)
  rw [← total_ofLatencies latencies] at hmedian hninety hninetyNine
  have htotal : (ofLatencies latencies).total ≠ 0 := by
    rw [total_ofLatencies]
    exact mt List.length_eq_zero_iff.mp hne
  refine ⟨_, summary_eq htotal hmedian hninety hninetyNine,
    ⟨total_ofLatencies latencies, ?_, hmedian', hninety', hninetyNine'⟩⟩
  simp only [total_ofLatencies, sum_ofLatencies, Int.cast_natCast]

theorem mergeSort_eq {others : List Nat} (hperm : others.Perm latencies) :
    others.mergeSort = latencies.mergeSort :=
  ((List.mergeSort_perm others _).trans
    (hperm.trans (List.mergeSort_perm latencies _).symm)).eq_of_pairwise
    (fun _ _ _ _ => le_antisymm) List.sortedLE_mergeSort.pairwise List.sortedLE_mergeSort.pairwise

theorem AtRank.eq {others : List Nat} (hperm : others.Perm latencies)
    (hat : AtRank latencies rank latency) (hat' : AtRank others rank other) :
    other = latency := by
  obtain ⟨l, hl, rfl⟩ := hat
  obtain ⟨m, hm, rfl⟩ := hat'
  rw [mergeSort_eq hperm, hl] at hm
  rw [Option.some.inj hm]

theorem Summary.Describes.eq {others : List Nat} {s t : Summary ℚ} (hperm : others.Perm latencies)
    (hs : s.Describes latencies) (ht : t.Describes others) : t = s := by
  obtain ⟨hcount, haverage, hmedian, hninety, hninetyNine⟩ := ht
  rw [hperm.length_eq] at hcount haverage hmedian hninety hninetyNine
  rw [hperm.sum_eq] at haverage
  cases s
  cases t
  simp only [Summary.mk.injEq]
  exact ⟨hcount.trans hs.count.symm, haverage.trans hs.average.symm, hs.median.eq hperm hmedian,
    hs.ninety.eq hperm hninety, hs.ninetyNine.eq hperm hninetyNine⟩

end OrderStatistics

end Histogram

namespace Latencies

variable {l : Latencies} {name : String} {latencies : List Nat}

/-- A report of a number of any sort under a name; one that is refused changes nothing. -/
def offer (l : Latencies) (report : String × Value) : Latencies :=
  (l.reportValue report.1 report.2).toOption.getD l

/-- A report of a latency under a name. -/
def asReport (name : String) (latency : Nat) : String × Value :=
  (name, .int latency)

theorem offer_asReport (l : Latencies) (name : String) (latency : Nat) :
    l.offer (asReport name latency) = l.report name latency :=
  rfl

theorem exists_report_of_reportValue {l' : Latencies} {v : Value}
    (h : l.reportValue name v = .ok l') :
    ∃ latency, l' = l.report name latency := by
  obtain ⟨quantity, -, h⟩ := Outcome.exists_of_bind h
  cases quantity with
  | whole n => exact ⟨n, (Except.ok.inj h).symm⟩
  | real x =>
      obtain ⟨n, -, h⟩ := Outcome.exists_of_bind h
      exact ⟨n, (Except.ok.inj h).symm⟩

theorem histogram_offer_of_ne {report : String × Value} (h : report.1 ≠ name) :
    (l.offer report).histogram name = l.histogram name := by
  rw [offer]
  cases hreport : l.reportValue report.1 report.2 with
  | error fault => rfl
  | ok l' =>
      obtain ⟨latency, rfl⟩ := exists_report_of_reportValue hreport
      exact (histogram_report report.1 name latency).trans (if_neg h.symm)

theorem exists_histogram {reports : List (String × Value)}
    (h : ∀ report ∈ reports, report.1 = name → ∃ latency, report = asReport name latency) :
    ∃ latencies, reports.filter (·.1 = name) = latencies.map (asReport name) ∧
      (reports.foldl offer l).histogram name = (l.histogram name).reportAll latencies := by
  induction reports generalizing l with
  | nil => exact ⟨[], rfl, rfl⟩
  | cons report reports ih =>
      obtain ⟨hreport, hreports⟩ := List.forall_mem_cons.mp h
      obtain ⟨latencies, hfilter, hhistogram⟩ := ih (l := l.offer report) hreports
      rw [List.foldl_cons, hhistogram]
      by_cases hname : report.1 = name
      · obtain ⟨latency, rfl⟩ := hreport hname
        refine ⟨latency :: latencies, ?_, ?_⟩
        · rw [List.filter_cons_of_pos (by simpa using hname), hfilter]
          rfl
        · rw [offer_asReport, histogram_report, if_pos rfl]
          rfl
      · refine ⟨latencies, ?_, ?_⟩
        · rw [List.filter_cons_of_neg (by simpa using hname), hfilter]
        · rw [histogram_offer_of_ne hname]

/-- The summary of the latencies that were reported under a name, in whatever order, and with
whatever reports under other names between them. -/
theorem summary_exact (name : String) (hne : latencies ≠ []) :
    ∃ s : Histogram.Summary ℚ,
      (∀ reports : List (String × Value),
        (reports.filter (·.1 = name)).Perm (latencies.map (asReport name)) →
          (reports.foldl offer empty).summary name = .ok s) ∧
      s.Describes latencies ∧ s.median ≤ s.ninety ∧ s.ninety ≤ s.ninetyNine ∧
      (∀ bound : Nat, (∀ latency ∈ latencies, latency ≤ bound) → s.ninetyNine ≤ bound) ∧
      s.median ≠ Histogram.placeholder ∧ s.ninety ≠ Histogram.placeholder ∧
      s.ninetyNine ≠ Histogram.placeholder := by
  obtain ⟨s, -, hs⟩ := Histogram.exists_summary hne
  obtain ⟨hmedian, hninety⟩ := hs.ascending
  refine ⟨s, fun reports hreports => ?summary, hs, hmedian, hninety, fun bound hbound => ?bound,
    hs.median.ne_placeholder, hs.ninety.ne_placeholder, hs.ninetyNine.ne_placeholder⟩
  case summary =>
    have hinjective : Function.Injective (asReport name) := by
      intro a b hab
      simpa [asReport] using hab
    have hform : ∀ report ∈ reports, report.1 = name →
        ∃ latency, report = asReport name latency := by
      intro report hmem hname
      have hfiltered : report ∈ reports.filter (·.1 = name) :=
        List.mem_filter.mpr ⟨hmem, decide_eq_true hname⟩
      obtain ⟨latency, -, rfl⟩ := List.mem_map.mp (hreports.mem_iff.mp hfiltered)
      exact ⟨latency, rfl⟩
    obtain ⟨others, hfilter, hhistogram⟩ := exists_histogram (l := empty) hform
    rw [hfilter] at hreports
    have hperm := (List.map_perm_map_iff hinjective).mp hreports
    have hothers : others ≠ [] := by
      rintro rfl
      exact hne hperm.nil_eq.symm
    obtain ⟨t, hsummary, ht⟩ := Histogram.exists_summary hothers
    rw [summary, hhistogram, ← hs.eq hperm ht]
    exact hsummary
  case bound =>
    obtain ⟨latency, hmem, hlatency⟩ := hs.ninetyNine.exists_mem
    rw [hlatency]
    exact Int.ofNat_le.mpr (hbound latency hmem)

/-- Reports of four reads among others, one of which is refused. -/
def mixed : List (String × Value) :=
  [("read", .int 5), ("create", .int (-1)), ("read", .int 3), ("create", .text "slow"),
    ("read", .int 9), ("rename", .real 2.5), ("read", .int 3)]

theorem summary_exact_mixed : [5, 3, 9, 3] ≠ ([] : List Nat) ∧
    (mixed.filter (·.1 = "read")).Perm ([5, 3, 9, 3].map (asReport "read")) ∧
    ∃ s : Histogram.Summary ℚ, (mixed.foldl offer empty).summary "read" = .ok s ∧
      (mixed.reverse.foldl offer empty).summary "read" = .ok s ∧ s.Describes [5, 3, 9, 3] ∧
      s.ninetyNine ≤ 9 ∧ s.median ≠ Histogram.placeholder := by
  have hne : [5, 3, 9, 3] ≠ ([] : List Nat) := by decide
  have hreads : (mixed.filter (·.1 = "read")).Perm ([5, 3, 9, 3].map (asReport "read")) :=
    .of_eq rfl
  have hreverse :
      (mixed.reverse.filter (·.1 = "read")).Perm ([5, 3, 9, 3].map (asReport "read")) := by
    rw [List.filter_reverse]
    exact (List.reverse_perm _).trans hreads
  obtain ⟨s, hsummary, hs, -, -, hbound, hmedian, -⟩ := summary_exact "read" hne
  exact ⟨hne, hreads, s, hsummary mixed hreads, hsummary _ hreverse, hs,
    hbound 9 (by decide), hmedian⟩

end Latencies

end StorageLoad
