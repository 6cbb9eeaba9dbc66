import Mathlib.Data.List.Forall2
import StorageLoad.Proofs.Options

/-!
What becomes of the entries of the operations.  Every entry gives one operation, in order
(`forall₂_isSpecOf`): its kind is the one that the key names, and a limit that is given is kept,
whatever limits are derived beside it.
-/

namespace StorageLoad

section Rows

variable {ε δ α β γ : Type} {f : α → Except ε β} {as : List α} {bs : List β} {cs : List γ}
  {R : α → β → Prop}

theorem forall₂_of_mapM (h : as.mapM f = .ok bs) :
    List.Forall₂ (fun a b => f a = .ok b) as bs := by
  induction as generalizing bs with
  | nil =>
      obtain rfl := Except.ok.inj h
      exact .nil
  | cons a as ih =>
      rw [List.mapM_cons] at h
      cases hb : f a with
      | error cause =>
          rw [hb] at h
          cases h
      | ok b =>
          cases hrest : as.mapM f with
          | error cause =>
              rw [hb, hrest] at h
              cases h
          | ok rest =>
              rw [hb, hrest] at h
              obtain rfl := Except.ok.inj h
              exact .cons hb (ih hrest)

theorem forall₂_trans {S : β → γ → Prop} (hR : List.Forall₂ R as bs) (hS : List.Forall₂ S bs cs) :
    List.Forall₂ (fun a c => ∃ b, R a b ∧ S b c) as cs := by
  induction hR generalizing cs with
  | nil =>
      cases hS
      exact .nil
  | cons hab hrest ih =>
      cases hS with
      | cons hbc hS => exact .cons ⟨_, hab, hbc⟩ (ih hS)

theorem forall₂_zip {S : α → γ → Prop} (hR : List.Forall₂ R as bs) (hS : List.Forall₂ S as cs) :
    List.Forall₂ (fun a bc => R a bc.1 ∧ S a bc.2) as (bs.zip cs) := by
  induction hR generalizing cs with
  | nil =>
      cases hS
      exact .nil
  | cons hab hrest ih =>
      cases hS with
      | cons hac hS => exact .cons ⟨hab, hac⟩ (ih hS)

theorem exists_of_forall₂ (h : List.Forall₂ R as bs) : ∀ b ∈ bs, ∃ a ∈ as, R a b := by
  induction h with
  | nil => nofun
  | cons hab hrest ih =>
      refine List.forall_mem_cons.mpr ⟨⟨_, List.mem_cons_self, hab⟩, fun b hb => ?_⟩
      obtain ⟨a, ha, hab⟩ := ih b hb
      exact ⟨a, List.mem_cons_of_mem _ ha, hab⟩

theorem eq_ok_of_mapError {g : ε → δ} {answer : Except ε α} {a : α}
    (h : answer.mapError g = .ok a) : answer = .ok a := by
  cases answer with
  | error cause => cases h
  | ok b => exact congrArg Except.ok (Except.ok.inj h)

end Rows

namespace Shares

open Outcome

variable {𝕜 : Type}

theorem forall₂_handOut {remainder : Int} {parts : List Part} :
    List.Forall₂ (fun p q => p.grows = false → q = p) parts (handOut remainder parts) := by
  induction parts generalizing remainder with
  | nil => exact .nil
  | cons p ps ih =>
      rw [handOut]
      split
      · exact .cons (fun _ => rfl) (List.forall₂_same.mpr fun _ _ _ => rfl)
      · split
        · rename_i hgrows
          exact .cons (fun h => absurd (hgrows.symm.trans h) nofun) ih
        · exact .cons (fun _ => rfl) ih

theorem forall₂_pairUp {given : List (Option Int)} {percents : List (Quantity 𝕜)}
    {kinds : List (Given 𝕜)} (h : pairUp given percents = .ok kinds) :
    List.Forall₂ (fun g k => ∀ n ∈ g, k = .limit n) given kinds := by
  induction given generalizing percents kinds with
  | nil =>
      obtain rfl := Except.ok.inj h
      exact .nil
  | cons g given ih =>
      cases g with
      | some limit =>
          obtain ⟨rest, hrest, h⟩ := exists_of_bind h
          obtain rfl := Except.ok.inj h
          refine .cons ?_ (ih hrest)
          intro n hn
          rw [Option.mem_some_iff.mp hn]
      | none =>
          cases percents with
          | nil => cases h
          | cons percent percents =>
              obtain ⟨rest, hrest, h⟩ := exists_of_bind h
              obtain rfl := Except.ok.inj h
              exact .cons nofun (ih hrest)

theorem forall₂_limits [Add 𝕜] [Mul 𝕜] [Div 𝕜] [LT 𝕜] [DecidableLT 𝕜] [OfScientific 𝕜]
    [Reckoning 𝕜] {total : Int} {percents : List (Quantity 𝕜)} {given : List (Option Int)}
    {result : List Int} (h : limits total percents given = .ok result) :
    List.Forall₂ (fun g limit => ∀ n ∈ g, limit = n) given result := by
  obtain ⟨kinds, hkinds, h⟩ := exists_of_bind h
  obtain ⟨shares, -, h⟩ := exists_of_bind h
  obtain ⟨floors, -, h⟩ := exists_of_bind h
  obtain ⟨sum, -, h⟩ := exists_of_bind h
  obtain ⟨parts, hparts, h⟩ := exists_of_bind h
  obtain rfl := Except.ok.inj h
  rw [List.forall₂_map_right_iff]
  refine (forall₂_trans (forall₂_pairUp hkinds) (forall₂_trans
    (forall₂_of_mapM (eq_ok_of_mapError hparts)) forall₂_handOut)).imp ?_
  rintro g q ⟨k, hk, p, hp, hq⟩ n hn
  rw [hk n hn] at hp
  obtain rfl := Except.ok.inj hp
  rw [hq rfl]

end Shares

namespace Options

open Outcome

/-- The settings in the value of an entry. -/
def settingsOf : Value → Options
  | .null => []
  | .map settings => settings
  | v => [(.text "percent", v)]

/-- The entries of the operations: those that are given, or one for each kind. -/
def entries (options : Options) : List (Value × Value) :=
  match options.get? "operations" with
  | none => Kind.selectable.map fun kind => (.text kind.name, .map [])
  | some (.map entries) => entries
  | some _ => []

/-- The operation that comes from an entry: it has the kind that the key names, and the percentage
and the limit that the settings give. -/
structure IsSpecOf (totalOps : Option Int) (entry : Value × Value) (s : Spec Float) : Prop where
  kind : ∃ name, entry.1.toText? = .ok name ∧ Kind.ofText? name = some s.kind
  selectable : s.kind ∈ Kind.selectable
  percent : ∀ v ∈ (settingsOf entry.2).get? "percent",
    Config.number (s.kind.name ++ ".percent") (some (.whole 100)) v = .ok s.percent
  given : ∀ v ∈ (settingsOf entry.2).get? "max_count",
    ∃ n, Config.int (s.kind.name ++ ".max_count") 0 v = .ok n ∧ 0 ≤ n ∧ s.maxCount = some n
  derived : (settingsOf entry.2).get? "max_count" = none → s.maxCount.isSome = totalOps.isSome

theorem of_operation {entry : Value × Value} {kind : Kind} {settings : Options}
    (h : operation entry = .ok (kind, settings)) :
    (∃ name, entry.1.toText? = .ok name ∧ Kind.ofText? name = some kind) ∧
      kind ∈ Kind.selectable ∧ settings = settingsOf entry.2 := by
  have hselectable := Kind.mem_selectable_iff.mpr (ne_sleep_of_operation h)
  obtain ⟨name, hname, h⟩ := exists_of_bind h
  split at h
  · cases h
  · rename_i k hkind
    split at h
    · cases h
    · obtain ⟨extra, -, h⟩ := exists_of_bind h
      split at h
      · obtain ⟨rfl, rfl⟩ := Prod.mk.inj (Except.ok.inj h)
        exact ⟨⟨name, eq_ok_of_mapError hname, hkind⟩, hselectable, rfl⟩
      · cases h

section ReadIf

variable {α : Type} {settings : Options} {name : String} {read : Value → Outcome α}
  {result : Option α}

theorem exists_of_readIf (h : settings.readIf name read = .ok result) :
    ∀ v ∈ settings.get? name, ∃ a, read v = .ok a ∧ result = some a := by
  intro v hv
  rw [readIf, Option.mem_def.mp hv] at h
  obtain ⟨a, ha, h⟩ := exists_of_bind h
  exact ⟨a, ha, (Except.ok.inj h).symm⟩

theorem eq_none_of_readIf (h : settings.readIf name read = .ok result)
    (hnone : settings.get? name = none) : result = none := by
  rw [readIf, hnone] at h
  exact (Except.ok.inj h).symm

end ReadIf

/-- The percentages that are stated. -/
def stated (entries : List (Kind × Options)) : Outcome (List (Option Float)) :=
  entries.mapM fun entry =>
    entry.2.readIf "percent" (Config.number (entry.1.name ++ ".percent") (some (.whole 100)))

/-- What stated percentages leave of a hundred. -/
def leftover (given : List (Option Float)) : Float :=
  if 0.0 < 100.0 - (given.filterMap id).foldl (· + ·) 0.0 then
    100.0 - (given.filterMap id).foldl (· + ·) 0.0
  else 0.0

theorem percents_eq (entries : List (Kind × Options)) : percents entries = do
    let given ← stated entries
    let count ← Double.ofInt (given.countP Option.isNone)
    return given.map (·.getD (leftover given / count)) :=
  rfl

theorem forall₂_percents {entries : List (Kind × Options)} {result : List Float}
    (h : percents entries = .ok result) :
    List.Forall₂ (fun entry percent => ∀ v ∈ entry.2.get? "percent",
      Config.number (entry.1.name ++ ".percent") (some (.whole 100)) v = .ok percent) entries
        result := by
  rw [percents_eq] at h
  obtain ⟨given, hgiven, h⟩ := exists_of_bind h
  obtain ⟨count, -, h⟩ := exists_of_bind h
  obtain rfl := Except.ok.inj h
  rw [List.forall₂_map_right_iff]
  refine (forall₂_of_mapM hgiven).imp fun entry g hg v hv => ?_
  obtain ⟨a, ha, rfl⟩ := exists_of_readIf hg v hv
  exact ha

/-- The limits that are given. -/
def givenLimits (entries : List (Kind × Options)) : Outcome (List (Option Int)) :=
  entries.mapM fun entry =>
    entry.2.readIf "max_count" (Config.int (entry.1.name ++ ".max_count") 0)

/-- The limits of all operations: those that are given, and where there is a total those that are
derived from it. -/
def maxCounts (totalOps : Option Int) (percents : List Float) (given : List (Option Int)) :
    Outcome (List (Option Int)) :=
  match totalOps with
  | some total => do pure ((← Shares.limits total (percents.map .real) given).map some)
  | none => pure given

theorem forall₂_maxCounts {totalOps : Option Int} {percents : List Float}
    {given limits : List (Option Int)} (h : maxCounts totalOps percents given = .ok limits) :
    List.Forall₂ (fun g limit => (∀ n ∈ g, limit = some n) ∧
      (g = none → limit.isSome = totalOps.isSome)) given limits := by
  cases totalOps with
  | none =>
      obtain rfl := Except.ok.inj h
      refine List.forall₂_same.mpr fun g _ => ⟨fun n hn => hn, ?_⟩
      rintro rfl
      rfl
  | some total =>
      obtain ⟨result, hresult, h⟩ := exists_of_bind h
      obtain rfl := Except.ok.inj h
      rw [List.forall₂_map_right_iff]
      refine (Shares.forall₂_limits hresult).imp fun g limit hkept => ⟨?_, fun _ => rfl⟩
      intro n hn
      rw [hkept n hn]

/-- The operation made of an entry, a percentage and a limit. -/
def specOf (row : (Kind × Options) × Float × Option Int) : Outcome (Spec Float) := do
  return ⟨row.1.1, row.2.1, ← curve row.1.1 row.1.2, row.2.2⟩

/-- The steps from the entries to the operations. -/
def operationsOf (totalOps : Option Int) (entries : List (Value × Value)) :
    Outcome (List (Spec Float)) := do
  let entries ← entries.mapM operation
  let percents ← percents entries
  let given ← givenLimits entries
  let limits ← maxCounts totalOps percents given
  (entries.zip (percents.zip limits)).mapM specOf

theorem operations_eq_or (options : Options) (totalOps : Option Int) :
    options.operations totalOps = .error (.option .operationsNotMapping) ∨
      options.operations totalOps = operationsOf totalOps options.entries := by
  unfold operations
  dsimp only
  split
  · rename_i raw hraw
    have hentries : options.entries = raw := by
      rw [entries]
      rw [getD] at hraw
      cases hget : options.get? "operations" with
      | none =>
          rw [hget] at hraw
          exact Value.map.inj hraw
      | some v =>
          rw [hget, Option.getD_some] at hraw
          rw [hraw]
    rw [hentries]
    cases totalOps with
    | none => exact Or.inr rfl
    | some total =>
        refine Or.inr ?_
        simp only [operationsOf, maxCounts, bind_assoc, pure_bind]
        rfl
  · exact Or.inl rfl

theorem exists_of_operations {options : Options} {totalOps : Option Int}
    {specs : List (Spec Float)} (h : options.operations totalOps = .ok specs) :
    ∃ entries percents given limits, options.entries.mapM operation = .ok entries ∧
      Options.percents entries = .ok percents ∧
      givenLimits entries = .ok given ∧
      maxCounts totalOps percents given = .ok limits ∧
      (entries.zip (percents.zip limits)).mapM specOf = .ok specs := by
  rcases options.operations_eq_or totalOps with heq | heq
  · cases heq.symm.trans h
  · rw [heq] at h
    obtain ⟨entries, hentries, h⟩ := exists_of_bind h
    obtain ⟨percents, hpercents, h⟩ := exists_of_bind h
    obtain ⟨given, hgiven, h⟩ := exists_of_bind h
    obtain ⟨limits, hlimits, hspecs⟩ := exists_of_bind h
    exact ⟨entries, percents, given, limits, hentries, hpercents, hgiven, hlimits, hspecs⟩

/-- Every entry gives one operation, in order. -/
theorem forall₂_isSpecOf {options : Options} {totalOps : Option Int} {specs : List (Spec Float)}
    (h : options.operations totalOps = .ok specs) :
    List.Forall₂ (IsSpecOf totalOps) options.entries specs := by
  obtain ⟨entries, percents, given, limits, hentries, hpercents, hgiven, hlimits, hspecs⟩ :=
    exists_of_operations h
  have hentries := forall₂_of_mapM hentries
  have hlimits := forall₂_trans (forall₂_of_mapM hgiven) (forall₂_maxCounts hlimits)
  have hrows := forall₂_zip (List.forall₂_same.mpr fun entry _ => Eq.refl entry)
    (forall₂_zip (forall₂_percents hpercents) hlimits)
  refine (forall₂_trans hentries (forall₂_trans hrows (forall₂_of_mapM hspecs))).imp ?_
  rintro entry s ⟨row, hentry, ⟨_, percent, limit⟩, ⟨rfl, hpercent, g, hg, hkept, hderived⟩, hs⟩
  obtain ⟨hkind, hselectable, hsettings⟩ := of_operation hentry
  obtain ⟨curve, -, hs⟩ := exists_of_bind hs
  obtain rfl := Except.ok.inj hs
  rw [hsettings] at hpercent hg
  refine ⟨hkind, hselectable, hpercent, ?_, ?_⟩
  · intro v hv
    obtain ⟨n, hn, hlimit⟩ := exists_of_readIf hg v hv
    exact ⟨n, hn, Config.le_of_int hn, hkept n hlimit⟩
  · intro hnone
    exact hderived (eq_none_of_readIf hg hnone)

end Options

end StorageLoad
