import StorageLoad.Proofs.Reducer

/-!
The keys of statistics.  Which texts are keys is told by their first two characters and by an
asterisk behind them, and what is read from a key makes up that key again, so that what is merged
under a key always has it.  A statistic that goes out as its key and its text comes back as one
that is equal to it, and under the same names unless the name of the operation holds an asterisk
(`parse_exact`).
-/

namespace StorageLoad

namespace Figure

variable {f : Figure}

/-- The integer that a figure is. -/
def whole? : Figure → Option Int
  | long n => some n
  | integer n => some n
  | _ => none

/-- Whether a figure is a text, or an integer that is not too long to be written. -/
structure IsWritable (f : Figure) : Prop where
  form_ne : f.form ≠ .double
  short : ∀ n, f.whole? = some n → Value.isOversized n = false

theorem toText_of_whole? {n : Int} (h : f.whole? = some n) : f.toText = integerText n := by
  cases f with
  | long m | integer m =>
      obtain rfl := Option.some.inj h
      exact Value.toTextOutcome_int m
  | _ => cases h

theorem IsWritable.exists_toText (h : f.IsWritable) :
    ∃ text, f.toText = .ok text ∧ ofValue f.form (.text text) = .ok f := by
  cases f with
  | long n | integer n =>
      have hshort := h.short n rfl
      refine ⟨toString n, ?_, ?_⟩
      · rw [toText_of_whole? rfl, integerText, hshort]
        rfl
      · simp only [ofValue, form, Value.toInt, Literal.integer_toString hshort]
        rfl
  | double x => exact absurd rfl h.form_ne
  | text s => exact ⟨s, rfl, rfl⟩

theorem IsWritable.same_self (h : f.IsWritable) : f.same f := by
  cases f with
  | double x => exact absurd rfl h.form_ne
  | _ => simp [same, toValue, Value.sameKey, Value.whole?]

end Figure

namespace Record

open Figure

variable {form : Form} {opType measurement key : String} {v : Value} {r s : Record}

/-- What a record is a statistic of: its sort and its names. -/
def identity (r : Record) : Form × String × String :=
  (r.figure.form, r.opType, r.measurement)

/-- Whether a text is a key: a letter, a colon and a rest with an asterisk in it. -/
def IsKey (key : String) : Prop :=
  ∃ letter ∈ ['l', 'd', 'i', 's'], ∃ rest, key.toList = letter :: ':' :: rest ∧ '*' ∈ rest

theorem letter_mem (form : Form) : form.letter ∈ ['l', 'd', 'i', 's'] := by
  cases form <;> decide

theorem exists_letter {letter : Char} (h : letter ∈ ['l', 'd', 'i', 's']) :
    ∃ form : Form, form.letter = letter := by
  simp only [List.mem_cons, List.not_mem_nil, or_false] at h
  rcases h with rfl | rfl | rfl | rfl
  · exact ⟨.long, rfl⟩
  · exact ⟨.double, rfl⟩
  · exact ⟨.integer, rfl⟩
  · exact ⟨.text, rfl⟩

/-- A key is read as the sort and the names that make it up, of which the first has no
asterisk. -/
theorem readKey_eq_ok_iff : readKey key = .ok (form, opType, measurement) ↔
    key = keyOf form opType measurement ∧ '*' ∉ opType.toList := by
  constructor
  · intro h
    refine ⟨(keyOf_of_readKey h).symm, ?_⟩
    simp only [readKey] at h
    split at h
    · cases h
    · split at h
      · rename_i hstar _
        obtain ⟨-, hnames⟩ := Prod.mk.inj (Except.ok.inj h)
        rw [← (Prod.mk.inj hnames).1, String.toList_ofList]
        exact (Text.splitFirst_eq_some_iff.mp hstar).2
      · cases h
  · rintro ⟨rfl, hstar⟩
    exact readKey_keyOf hstar

theorem isKey_keyOf (form : Form) (opType measurement : String) :
    IsKey (keyOf form opType measurement) := by
  refine ⟨form.letter, letter_mem form, opType.toList ++ '*' :: measurement.toList, ?_, by simp⟩
  rw [keyOf, String.toList_ofList]
  rfl

theorem isKey_iff : IsKey key ↔ ∃ names, readKey key = .ok names := by
  constructor
  · rintro ⟨letter, hletter, rest, hkey, hstar⟩
    obtain ⟨form, rfl⟩ := exists_letter hletter
    obtain ⟨⟨before, after⟩, hsplit⟩ :=
      Option.ne_none_iff_exists'.mp (mt Text.splitFirst_eq_none_iff.mp (not_not.mpr hstar))
    obtain ⟨rfl, hbefore⟩ := Text.splitFirst_eq_some_iff.mp hsplit
    refine ⟨(form, String.ofList before, String.ofList after), readKey_eq_ok_iff.mpr ⟨?_, ?_⟩⟩
    · apply String.toList_inj.mp
      rw [hkey, keyOf, String.toList_ofList, String.toList_ofList, String.toList_ofList]
      rfl
    · rwa [String.toList_ofList]
  · rintro ⟨⟨form, opType, measurement⟩, h⟩
    rw [(readKey_eq_ok_iff.mp h).1]
    exact isKey_keyOf form opType measurement

theorem exists_readKey_key (r : Record) : ∃ opType measurement,
    readKey r.key = .ok (r.figure.form, opType, measurement) ∧ '*' ∉ opType.toList ∧
      keyOf r.figure.form opType measurement = r.key := by
  obtain ⟨⟨form, opType, measurement⟩, h⟩ :=
    isKey_iff.mp (isKey_keyOf r.figure.form r.opType r.measurement)
  obtain ⟨hkey, hstar⟩ := readKey_eq_ok_iff.mp h
  have hlist := congrArg String.toList hkey
  rw [keyOf, keyOf, String.toList_ofList, String.toList_ofList] at hlist
  have hform : [r.figure.form.letter] = [form.letter] := by
    rw [(List.cons.inj hlist).1]
  obtain rfl : r.figure.form = form := by
    have hread := Form.ofText?_eq_some_iff.mpr hform
    rw [Form.ofText?_eq_some_iff.mpr rfl] at hread
    exact Option.some.inj hread
  exact ⟨opType, measurement, h, hstar, hkey.symm⟩

theorem parse_of_readKey (h : readKey key = .ok (form, opType, measurement)) (v : Value) :
    parse key v = ofValue form opType measurement v := by
  rw [parse, h]
  rfl

theorem parse_eq_badKey_iff : parse key v = .error (.record (.badKey key)) ↔ ¬ IsKey key := by
  rw [isKey_iff]
  constructor
  · rintro h ⟨⟨form, opType, measurement⟩, hkey⟩
    rw [parse_of_readKey hkey] at h
    rcases Outcome.error_of_bind h with h | ⟨_, -, h⟩
    · obtain ⟨cause, hcause, -⟩ := exists_of_ofValue_error h
      cases hcause
    · cases h
  · intro hnone
    cases hkey : readKey key with
    | error fault =>
        rw [parse, hkey, fault_of_readKey hkey]
        rfl
    | ok names => exact absurd ⟨names, hkey⟩ hnone

theorem IsKey.exists_parse (h : IsKey key) : ∃ v r, parse key v = .ok r := by
  obtain ⟨⟨form, opType, measurement⟩, hkey⟩ := isKey_iff.mp h
  refine ⟨.bool true, ?_⟩
  rw [parse_of_readKey hkey]
  cases form <;> exact ⟨_, rfl⟩

theorem key_of_parse (h : parse key v = .ok r) : r.key = key :=
  (isOf_of_parse h).key_eq

theorem exists_parse_key (h : r.figure.IsWritable) : ∃ text s, r.text = .ok text ∧
    parse r.key (.text text) = .ok s ∧ s.same r ∧ s.figure = r.figure ∧
      (s.identity = r.identity ↔ '*' ∉ r.opType.toList) := by
  obtain ⟨text, htext, hfigure⟩ := h.exists_toText
  obtain ⟨opType, measurement, hkey, hstar, hsame⟩ := exists_readKey_key r
  refine ⟨text, ⟨opType, measurement, r.figure⟩, htext, ?_, ?_, rfl, ?_⟩
  · rw [parse_of_readKey hkey, ofValue, hfigure]
    rfl
  · rw [same, key, hsame, h.same_self]
    simp
  · constructor
    · intro hidentity
      obtain ⟨-, hnames⟩ := Prod.mk.inj hidentity
      rwa [← (Prod.mk.inj hnames).1]
    · intro hr
      exact keyOf_injective hstar hr hsame

end Record

namespace Reducer

open Record

/-- What is merged after any number of batches, of each what comes before its first bad pair. -/
def afterBatches (batches : List (List (String × Value))) : Reducer :=
  batches.foldl (fun m pairs => (m.addAll pairs).2) empty

theorem exists_isMergeOf_afterBatches (batches : List (List (String × Value))) :
    ∃ records, (afterBatches batches).IsMergeOf records := by
  have hfold : ∀ (m : Reducer) (records : List Record), m.IsMergeOf records →
      ∃ rest, (batches.foldl (fun m pairs => (m.addAll pairs).2) m).IsMergeOf rest := by
    induction batches with
    | nil => exact fun m records hm => ⟨records, hm⟩
    | cons pairs batches ih =>
        intro m records hm
        obtain ⟨rest, hrest⟩ := hm.exists_addAll_snd pairs
        exact ih _ rest hrest
  exact hfold empty [] isMergeOf_empty

end Reducer

namespace Record

open Figure

/-- A text is refused as a key just if it is none, and under a key a statistic with that key is
read, so that what is merged under a key and what comes under it can be merged.  What goes out is
read back as an equal statistic, which has the same sort and the same names just if the name of
the operation has no asterisk; and among statistics with such names those with the same key are
the same. -/
theorem parse_exact :
    (∀ key v, parse key v = .error (.record (.badKey key)) ↔ ¬ IsKey key) ∧
      (∀ key, IsKey key → ∃ v r, parse key v = .ok r) ∧
      (∀ key v r, parse key v = .ok r → r.key = key ∧
        ∀ batches current, (Reducer.afterBatches batches).get? key = some current →
          current.key = r.key ∧ ∃ merged, current.merge r = .ok merged) ∧
      (∀ r : Record, r.figure.IsWritable → ∃ text s, r.text = .ok text ∧
        parse r.key (.text text) = .ok s ∧ s.same r ∧
        (s.identity = r.identity ↔ '*' ∉ r.opType.toList)) ∧
      ∀ r s : Record, '*' ∉ r.opType.toList → '*' ∉ s.opType.toList →
        (r.key = s.key ↔ r.identity = s.identity) := by
  refine ⟨fun _ _ => parse_eq_badKey_iff, fun _ hkey => hkey.exists_parse, ?_, ?_, ?_⟩
  · intro key v r hparse
    refine ⟨key_of_parse hparse, fun batches current hget => ?_⟩
    obtain ⟨records, hm⟩ := Reducer.exists_isMergeOf_afterBatches batches
    obtain ⟨hcurrent, hcombines⟩ := hm.combines key current hget
    have hr := isOf_of_parse hparse
    obtain ⟨merged, hmerge, -⟩ := hcurrent.exists_merge hr hcombines
    exact ⟨hcurrent.key_eq.trans hr.key_eq.symm, merged, hmerge⟩
  · intro r hwritable
    obtain ⟨text, s, htext, hparse, hsame, -, hidentity⟩ := exists_parse_key hwritable
    exact ⟨text, s, htext, hparse, hsame, hidentity⟩
  · intro r s hr hs
    refine ⟨keyOf_injective hr hs, fun h => ?_⟩
    obtain ⟨hform, hnames⟩ := Prod.mk.inj h
    obtain ⟨hopType, hmeasurement⟩ := Prod.mk.inj hnames
    rw [key, key, hform, hopType, hmeasurement]

/-- A text without a colon is no key, and an asterisk in the name of an operation is taken for the
end of that name. -/
theorem parse_exact_starred :
    parse "lx*n" (.text "1") = .error (.record (.badKey "lx*n")) ∧
      ∃ text s, (long "a*b" "n" 7).text = .ok text ∧ parse "l:a*b*n" (.text text) = .ok s ∧
        s.same (long "a*b" "n" 7) ∧ s.identity ≠ (long "a*b" "n" 7).identity := by
  obtain ⟨hbad, -, -, hback, -⟩ := parse_exact
  refine ⟨(hbad _ _).mpr ?_, ?_⟩
  · rintro ⟨letter, -, rest, hkey, -⟩
    simp at hkey
  · have hwritable : (long "a*b" "n" 7).figure.IsWritable := by
      refine ⟨by decide, fun n hn => ?_⟩
      obtain rfl := Option.some.inj hn
      exact Value.isOversized_of_le_two_pow (k := 3) (by decide) (by decide)
    obtain ⟨text, s, htext, hparse, hsame, hidentity⟩ := hback _ hwritable
    exact ⟨text, s, htext, hparse, hsame, hidentity.not.mpr (by decide)⟩

end Record

end StorageLoad
