import StorageLoad.Config.Reading
import StorageLoad.Proofs.Config.Entries
import StorageLoad.Proofs.Double.Value
import StorageLoad.Proofs.Literal

/-!
Values whose numbers are of a moderate size.  They are read without stumbling over the size of a
number, and what is read is of a moderate size again.
-/

namespace StorageLoad

namespace Double

variable {n : Int} {x : Float}

theorem natAbs_le_of_abs_le {k : Nat} (hk : 1000 ≤ k) (h : |(n : ℚ)| ≤ moderate) :
    n.natAbs ≤ 2 ^ k := by
  have hcast : ((n.natAbs : Nat) : ℚ) = |(n : ℚ)| := by
    rw [Nat.cast_natAbs, Int.cast_abs]
  have hpow : moderate ≤ 2 ^ k := by
    rw [moderate, ← zpow_natCast]
    exact zpow_le_zpow_right₀ one_le_two (by omega)
  rw [← hcast] at h
  exact_mod_cast h.trans hpow

end Double

namespace Literal

variable {s : String} {cause : NumberFault}

end Literal

/-- A text that spells no number beyond the moderate ones, be it as an integer, as a size or as a
real number. -/
structure Literal.IsModest (s : String) : Prop where
  whole : ∀ n, Literal.integer s = .ok n → |(n : ℚ)| ≤ Double.moderate
  size : ∀ n, Config.sizeOfText s = .ok n → |(n : ℚ)| ≤ Double.moderate
  real : ∀ x, Literal.real s = .ok x → |Double.value x| ≤ Double.moderate

theorem Literal.IsModest.of_none {s : String} (hwhole : (Literal.integer s).toOption.isNone)
    (hsize : (Config.sizeOfText s).toOption.isNone) (hreal : (Literal.real s).toOption.isNone) :
    Literal.IsModest s := by
  constructor
  · intro n hn
    rw [hn] at hwhole
    cases hwhole
  · intro n hn
    rw [hn] at hsize
    cases hsize
  · intro x hx
    rw [hx] at hreal
    cases hreal

namespace Value

/-- A value whose numbers are of a moderate size, those included that a text spells as a whole or
between commas.  Keys are texts, whatever they spell. -/
inductive IsModest : Value → Prop where
  | null : IsModest .null
  | bool (b : Bool) : IsModest (.bool b)
  | int {n : Int} (h : |(n : ℚ)| ≤ Double.moderate) : IsModest (.int n)
  | real {x : Float} (hshape : ∀ negative, Double.shape x ≠ .infinite negative)
      (h : |Double.value x| ≤ Double.moderate) : IsModest (.real x)
  | text {s : String} (h : Literal.IsModest s)
      (hparts : ∀ part ∈ Text.splitAll ',' s.toList, Literal.IsModest (String.ofList part)) :
      IsModest (.text s)
  | list {items : List Value} (h : ∀ v ∈ items, IsModest v) : IsModest (.list items)
  | tuple {items : List Value} (h : ∀ v ∈ items, IsModest v) : IsModest (.tuple items)
  | map {entries : List (Value × Value)} (hkeys : ∀ e ∈ entries, ∃ s, e.1 = .text s)
      (hvalues : ∀ e ∈ entries, IsModest e.2) : IsModest (.map entries)

variable {v w : Value}

section Writing

theorem anyOversized_eq_false {vs : List Value} (h : ∀ v ∈ vs, v.hasOversized = false) :
    anyOversized vs = false := by
  induction vs with
  | nil => rfl
  | cons v vs ih =>
      obtain ⟨hv, hvs⟩ := List.forall_mem_cons.mp h
      rw [anyOversized, hv, ih hvs]
      rfl

theorem anyEntryOversized_eq_false {entries : List (Value × Value)}
    (hkeys : ∀ e ∈ entries, e.1.hasOversized = false)
    (hvalues : ∀ e ∈ entries, e.2.hasOversized = false) :
    anyEntryOversized entries = false := by
  induction entries with
  | nil => rfl
  | cons e entries ih =>
      obtain ⟨hkey, hkeys⟩ := List.forall_mem_cons.mp hkeys
      obtain ⟨hvalue, hvalues⟩ := List.forall_mem_cons.mp hvalues
      rw [anyEntryOversized, hkey, hvalue, ih hkeys hvalues]
      rfl

theorem isOversized_of_abs_le {n : Int} (h : |(n : ℚ)| ≤ Double.moderate) :
    isOversized n = false :=
  isOversized_of_le_two_pow (by decide) (Double.natAbs_le_of_abs_le le_rfl h)

theorem IsModest.hasOversized (h : v.IsModest) : v.hasOversized = false := by
  induction h with
  | null => rfl
  | bool b => rfl
  | int h => exact isOversized_of_abs_le h
  | real hshape h => rfl
  | text h hparts => rfl
  | list h ih => exact anyOversized_eq_false ih
  | tuple h ih => exact anyOversized_eq_false ih
  | map hkeys hvalues ih =>
      refine anyEntryOversized_eq_false (fun e he => ?_) ih
      obtain ⟨s, hs⟩ := hkeys e he
      rw [hs]
      rfl

theorem exists_quoted? (h : v.hasOversized = false) : ∃ s, v.quoted? = .ok s := by
  rw [quoted?, h]
  exact ⟨_, rfl⟩

end Writing

section Parts

theorem IsModest.of_map {entries : List (Value × Value)} (h : (Value.map entries).IsModest) :
    ∀ e ∈ entries, e.2.IsModest := by
  cases h with
  | map hkeys hvalues => exact hvalues

end Parts

section Numbers

variable {n : Int} {x : Float} {cause : NumberFault}

end Numbers

end Value

namespace Config

open Text

/-- A character that stands in no text of a size: no blank, no digit and no unit. -/
def IsForeign (c : Char) : Prop :=
  isBlank c = false ∧ isDigit c = false ∧ unit? c = none

instance (c : Char) : Decidable (IsForeign c) :=
  inferInstanceAs (Decidable (_ ∧ _ ∧ _))

theorem mem_dropWhile {p : Char → Bool} {cs : List Char} {c : Char} (hc : c ∈ cs)
    (hp : p c = false) :
    c ∈ cs.dropWhile p := by
  rw [← List.takeWhile_append_dropWhile (p := p) (l := cs)] at hc
  rcases List.mem_append.mp hc with hc | hc
  · rw [List.mem_takeWhile_imp hc] at hp
    cases hp
  · exact hc

theorem sizeParts?_of_isForeign {cs : List Char} {c : Char} (hc : c ∈ cs) (h : IsForeign c) :
    sizeParts? cs = none := by
  obtain ⟨hblank, hdigit, hunit⟩ := h
  have hrest := mem_dropWhile (mem_dropWhile (mem_dropWhile hc hblank) hdigit) hblank
  rw [sizeParts?]
  split
  · rfl
  · split
    · rename_i hnil
      rw [hnil] at hrest
      cases hrest
    · rename_i d rest hcons
      rw [hcons] at hrest
      rcases List.mem_cons.mp hrest with rfl | hrest
      · rw [hunit]
        rfl
      · have hall : rest.all isBlank = false := List.all_eq_false.mpr ⟨c, hrest, by simp [hblank]⟩
        rw [hall]
        cases unit? d with
        | none => rfl
        | some factor => rfl

end Config

end StorageLoad
