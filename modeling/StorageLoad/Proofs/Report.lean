import StorageLoad.Proofs.Literal
import StorageLoad.Proofs.Rates
import StorageLoad.Proofs.Reducer
import StorageLoad.Proofs.Sections

/-!
The text of a report.  Statistics that are amounts, no two of them for the same operation and
measurement, are written out by operation and by measurement in ascending order, in whatever order
they come (`text_exact`).
-/

namespace StorageLoad

namespace Report

/-- The amounts of statistics by operation, and for each operation by measurement, both in
ascending order. -/
structure IsLedger (records : List Record) (accounts : List (String × List (String × Int))) :
    Prop where
  ascending : (accounts.map (·.1)).Pairwise fun k l => Text.codes k < Text.codes l
  mem_names_iff : ∀ name, name ∈ accounts.map (·.1) ↔ ∃ r ∈ records, r.opType = name
  ascending_amounts : ∀ account ∈ accounts,
    (account.2.map (·.1)).Pairwise fun k l => Text.codes k < Text.codes l
  mem_amounts_iff : ∀ account ∈ accounts, ∀ measurement n,
    (measurement, n) ∈ account.2 ↔ Record.long account.1 measurement n ∈ records

section Ledger

variable {β : Type} {records : List Record}
  {accounts accounts' : List (String × List (String × Int))}

theorem eq_of_ascending_names {as bs : List (String × β)}
    (has : (as.map (·.1)).Pairwise fun k l => Text.codes k < Text.codes l)
    (hbs : (bs.map (·.1)).Pairwise fun k l => Text.codes k < Text.codes l)
    (hmem : ∀ a, a ∈ as ↔ a ∈ bs) :
    as = bs := by
  rw [List.pairwise_map] at has hbs
  have hnodup : ∀ {cs : List (String × β)},
      cs.Pairwise (fun c d => Text.codes c.1 < Text.codes d.1) → cs.Nodup := by
    intro cs hcs
    refine hcs.imp ?_
    rintro c d hlt rfl
    exact List.lt_irrefl _ hlt
  have hperm : as.Perm bs := (List.perm_ext_iff_of_nodup (hnodup has) (hnodup hbs)).mpr hmem
  refine hperm.eq_of_pairwise ?_ has hbs
  intro a b _ _ hab hba
  exact absurd hba (List.lt_asymm hab)

theorem IsLedger.mem_of_mem (h : IsLedger records accounts) (h' : IsLedger records accounts')
    {account : String × List (String × Int)} (hmem : account ∈ accounts) :
    account ∈ accounts' := by
  have hname : account.1 ∈ accounts'.map (·.1) :=
    (h'.mem_names_iff _).mpr ((h.mem_names_iff _).mp (List.mem_map_of_mem hmem))
  obtain ⟨other, hother, heq⟩ := List.mem_map.mp hname
  have hamounts : other.2 = account.2 := by
    apply eq_of_ascending_names (h'.ascending_amounts other hother)
      (h.ascending_amounts account hmem)
    rintro ⟨measurement, n⟩
    rw [h'.mem_amounts_iff other hother, h.mem_amounts_iff account hmem, heq]
  have hsame : other = account := Prod.ext heq hamounts
  rwa [← hsame]

/-- Statistics have one ledger. -/
theorem IsLedger.eq (h : IsLedger records accounts) (h' : IsLedger records accounts') :
    accounts = accounts' :=
  eq_of_ascending_names h.ascending h'.ascending fun _ => ⟨h.mem_of_mem h', h'.mem_of_mem h⟩

end Ledger

/-- The lines of an operation: its name, its amounts, and the rates that follow from them. -/
def accountLines (account : String × List (String × Int)) : List String :=
  ("Operation \"" ++ account.1 ++ "\"") ::
    (account.2.map fun (measurement, n) => s!"  {measurement} = {n}") ++
    (ratesFrom account.2).map fun (label, rate) => s!"  {label} = {Layout.fixed 3 rate}"

/-- The lines of all operations, every line ended. -/
def written (accounts : List (String × List (String × Int))) : String :=
  String.join ((accounts.flatMap accountLines).map (· ++ "\n"))

section Accounts

variable {figures : List (String × Figure)} {amounts : List (String × Int)}
  {sections : List Section} {accounts : List (String × List (String × Int))}

/-- The section of an operation with only amounts. -/
def sectionOf (account : String × List (String × Int)) : Section :=
  ⟨account.1, ofAmounts account.2⟩

theorem exists_ofAmounts (h : ∀ entry ∈ figures, entry.2.form = .long) :
    ∃ amounts, figures = ofAmounts amounts := by
  induction figures with
  | nil => exact ⟨[], rfl⟩
  | cons entry figures ih =>
      obtain ⟨hentry, hfigures⟩ := List.forall_mem_cons.mp h
      obtain ⟨amounts, rfl⟩ := ih hfigures
      obtain ⟨measurement, figure⟩ := entry
      cases figure with
      | long n => exact ⟨(measurement, n) :: amounts, rfl⟩
      | _ => cases hentry

theorem exists_accounts (h : ∀ s ∈ sections, ∀ entry ∈ s.figures, entry.2.form = .long) :
    ∃ accounts, sections = List.map sectionOf accounts := by
  induction sections with
  | nil => exact ⟨[], rfl⟩
  | cons s sections ih =>
      obtain ⟨hs, hsections⟩ := List.forall_mem_cons.mp h
      obtain ⟨accounts, rfl⟩ := ih hsections
      obtain ⟨amounts, hamounts⟩ := exists_ofAmounts hs
      refine ⟨(s.name, amounts) :: accounts, ?_⟩
      rw [List.map_cons, sectionOf, ← hamounts]

theorem mem_ofAmounts {measurement : String} {n : Int} :
    (measurement, .long n) ∈ ofAmounts amounts ↔ (measurement, n) ∈ amounts := by
  rw [ofAmounts, List.mem_map]
  constructor
  · rintro ⟨entry, hentry, heq⟩
    obtain ⟨hmeasurement, hfigure⟩ := Prod.mk.inj heq
    rw [← hmeasurement, ← Figure.long.inj hfigure]
    exact hentry
  · intro hmem
    exact ⟨_, hmem, rfl⟩

theorem names_ofAmounts (amounts : List (String × Int)) :
    (ofAmounts amounts).map (·.1) = amounts.map (·.1) := by
  rw [ofAmounts, List.map_map]
  rfl

theorem toText_long {n : Int} (h : n.natAbs < 2 ^ 53) :
    (Figure.long n).toText = .ok (toString n) := by
  have hoversized : Value.isOversized n = false :=
    Value.isOversized_of_le_two_pow (k := 53) (by decide) h.le
  change (Value.int n).toTextOutcome = _
  rw [Value.toTextOutcome_int, integerText, hoversized]
  rfl

theorem mapM_ofAmounts (h : ∀ entry ∈ amounts, entry.2.natAbs < 2 ^ 53) :
    ((ofAmounts amounts).mapM fun entry => do
      return s!"  {entry.1} = {← entry.2.toText}" : Outcome (List String)) =
        .ok (amounts.map fun entry => s!"  {entry.1} = {entry.2}") := by
  rw [ofAmounts, List.mapM_map]
  apply mapM_eq_ok
  intro entry hentry
  change (do return s!"  {entry.1} = {← (Figure.long entry.2).toText}" : Outcome String) = _
  rw [toText_long (h entry hentry)]
  rfl

theorem lines_sectionOf {account : String × List (String × Int)}
    (h : ∀ entry ∈ account.2, entry.2.natAbs < 2 ^ 53) :
    Section.lines (sectionOf account) = .ok (accountLines account) := by
  refine (congrArg (· >>= _) (mapM_ofAmounts h)).trans ?_
  dsimp only
  rw [ok_bind]
  refine (congrArg (· >>= _) (ratesOf_eq h)).trans ?_
  rfl

theorem text_sectionOf (h : ∀ account ∈ accounts, ∀ entry ∈ account.2, entry.2.natAbs < 2 ^ 53) :
    text ⟨accounts.map sectionOf⟩ = .ok (written accounts) := by
  have hlines : (accounts.map sectionOf).mapM Section.lines =
      .ok (accounts.map accountLines) := by
    rw [List.mapM_map]
    exact mapM_eq_ok fun account haccount => lines_sectionOf (h account haccount)
  rw [text, hlines, ok_bind, written, List.flatMap_def]
  rfl

theorem failsOnly_lines (account : String × List (String × Int)) :
    FailsOnly (· ≠ .noTime) (Section.lines (sectionOf account)) := by
  refine .bind (.mapM fun entry _ => .bind ?_ fun _ _ => .ok _) fun _ _ =>
    .bind (failsOnly_ratesOf account.2) fun _ _ => .ok _
  exact .mapError .any fun _ _ => nofun

end Accounts

section Records

variable {records sorted : List Record} {accounts : List (String × List (String × Int))}

theorem names_sectionOf (accounts : List (String × List (String × Int))) :
    (accounts.map sectionOf).map (·.name) = accounts.map (·.1) := by
  rw [List.map_map]
  rfl

theorem IsCut.isLedger (h : IsCut sorted (accounts.map sectionOf)) (hperm : sorted.Perm records)
    (hsorted : sorted.Pairwise Record.IsBefore) : IsLedger records accounts where
  ascending := by
    rw [← names_sectionOf]
    exact h.ascending
  mem_names_iff name := by
    rw [← names_sectionOf, h.mem_names_iff]
    exact exists_congr fun r => and_congr_left' hperm.mem_iff
  ascending_amounts account haccount := by
    rw [← names_ofAmounts]
    exact h.ascending_figures hsorted (List.mem_map_of_mem haccount)
  mem_amounts_iff account haccount measurement n := by
    rw [← mem_ofAmounts, ← hperm.mem_iff]
    exact h.mem_figures_iff (List.mem_map_of_mem haccount) measurement (.long n)

theorem exists_accounts_ofRecords (h : ∀ r ∈ records, r.figure.form = .long) :
    ∃ accounts, (ofRecords records).sections = List.map sectionOf accounts :=
  exists_accounts (forall_ofRecords (p := fun figure => figure.form = .long) h)

theorem text_ne_noTime (h : ∀ r ∈ records, r.figure.form = .long) :
    (ofRecords records).text ≠ .error .noTime := by
  obtain ⟨accounts, haccounts⟩ := exists_accounts_ofRecords h
  have hfails : FailsOnly (· ≠ .noTime) (ofRecords records).text := by
    rw [text, haccounts, List.mapM_map]
    exact .bind (.mapM fun account _ => failsOnly_lines account) fun _ _ => .ok _
  exact fun htext => hfails .noTime htext rfl

/-- The text of a report shows every operation once and every amount once, both in ascending
order, with the rates that follow from the amounts of the operation itself, and it does not depend
on the order in which the statistics come. -/
theorem text_exact (hlong : ∀ r ∈ records, r.figure.form = .long)
    (hsmall : ∀ r ∈ records, r.figure.amount.natAbs < 2 ^ 53)
    (hdistinct : (records.map fun r => (r.opType, r.measurement)).Nodup) :
    (∃ accounts, IsLedger records accounts ∧
      ∀ others : List Record, others.Perm records →
        (ofRecords others).text = .ok (written accounts)) ∧
      ∀ others : List Record, (∀ r ∈ others, r.figure.form = .long) →
        (ofRecords others).text ≠ .error .noTime := by
  obtain ⟨accounts, haccounts⟩ := exists_accounts_ofRecords hlong
  have hledger : IsLedger records accounts := by
    have hcut := isCut_ofRecords hdistinct
    rw [haccounts] at hcut
    exact hcut.isLedger (List.mergeSort_perm records upTo) (pairwise_isBefore hdistinct)
  have hamounts : ∀ account ∈ accounts, ∀ entry ∈ account.2, entry.2.natAbs < 2 ^ 53 := by
    intro account haccount entry hentry
    exact hsmall _ ((hledger.mem_amounts_iff account haccount entry.1 entry.2).mp hentry)
  have htext : (ofRecords records).text = .ok (written accounts) := by
    rw [← text_sectionOf hamounts, ← haccounts]
  refine ⟨⟨accounts, hledger, fun others hperm => ?_⟩, fun others hothers =>
    text_ne_noTime hothers⟩
  rw [ofRecords_eq_of_perm hperm hdistinct, htext]

/-- An operation that took some time, and others of which the clock went back, stood still or is
not told. -/
def mixed : List Record :=
  [.long "worker" "op_count" 30, .long "create" "successes" 10,
    .long "delete" "milliseconds_taken" (-5),
    .long "create" "bytes_written" 2097152, .long "worker" "milliseconds_taken" 0,
    .long "delete" "successes" 1,
    .long "create" "milliseconds_taken" 2000, .long "Mkdir" "op_count" (-7)]

def mixedAccounts : List (String × List (String × Int)) :=
  [("Mkdir", [("op_count", -7)]),
    ("create", [("bytes_written", 2097152), ("milliseconds_taken", 2000), ("successes", 10)]),
    ("delete", [("milliseconds_taken", -5), ("successes", 1)]),
    ("worker", [("milliseconds_taken", 0), ("op_count", 30)])]

theorem isLedger_mixed : IsLedger mixed mixedAccounts where
  ascending := by decide
  mem_names_iff := by
    have hforward : ∀ name ∈ mixedAccounts.map (·.1), ∃ r ∈ mixed, r.opType = name := by decide
    have hback : ∀ r ∈ mixed, r.opType ∈ mixedAccounts.map (·.1) := by decide
    refine fun name => ⟨hforward name, ?_⟩
    rintro ⟨r, hr, rfl⟩
    exact hback r hr
  ascending_amounts := by decide
  mem_amounts_iff := by
    have hforward : ∀ account ∈ mixedAccounts, ∀ entry ∈ account.2,
        Record.long account.1 entry.1 entry.2 ∈ mixed := by decide
    have hback : ∀ account ∈ mixedAccounts, ∀ r ∈ mixed, r.opType = account.1 →
        (r.measurement, r.figure.amount) ∈ account.2 := by decide
    exact fun account haccount measurement n =>
      ⟨hforward account haccount (measurement, n), fun hr => hback account haccount _ hr rfl⟩

theorem text_exact_mixed : (∀ r ∈ mixed, r.figure.form = .long) ∧
    (∀ r ∈ mixed, r.figure.amount.natAbs < 2 ^ 53) ∧
    (mixed.map fun r => (r.opType, r.measurement)).Nodup ∧
    (ofRecords mixed.reverse).text = .ok
      ("Operation \"Mkdir\"\n  op_count = -7\n" ++
        "Operation \"create\"\n  bytes_written = 2097152\n" ++
        "  milliseconds_taken = 2000\n  successes = 10\n" ++
        "  Successes per second = 5.000\n  Megabytes written per second = 1.000\n" ++
        "Operation \"delete\"\n  milliseconds_taken = -5\n  successes = 1\n" ++
        "Operation \"worker\"\n  milliseconds_taken = 0\n  op_count = 30\n") ∧
    (ofRecords (mixed ++ mixed)).text ≠ .error .noTime := by
  have hlong : ∀ r ∈ mixed, r.figure.form = .long := by decide
  have hsmall : ∀ r ∈ mixed, r.figure.amount.natAbs < 2 ^ 53 := by decide
  have hdistinct : (mixed.map fun r => (r.opType, r.measurement)).Nodup := by decide
  obtain ⟨⟨accounts, hledger, htext⟩, hdivides⟩ := text_exact hlong hsmall hdistinct
  refine ⟨hlong, hsmall, hdistinct, ?_, ?_⟩
  · rw [htext _ (List.reverse_perm mixed), hledger.eq isLedger_mixed]
    exact congrArg Except.ok (by decide +kernel)
  · apply hdivides
    rw [List.forall_mem_append]
    exact ⟨hlong, hlong⟩

end Records

end Report

end StorageLoad
