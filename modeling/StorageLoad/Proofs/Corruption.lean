import StorageLoad.Proofs.Grammar

/-!
Altered content.  Bytes that a reader accepts are refused as soon as a payload is altered, whole
or partial, and the refusal tells where the first altered segment begins (`verify_of_isAltered`).
-/

namespace StorageLoad.Segment

/-- The place in a row at which its `i`-th part begins. -/
def startOf (parts : List Bytes) (i : Nat) : Nat :=
  (parts.take i).flatten.length

@[simp] theorem startOf_zero (parts : List Bytes) : startOf parts 0 = 0 :=
  rfl

@[simp] theorem startOf_cons (part : Bytes) (parts : List Bytes) (i : Nat) :
    startOf (part :: parts) (i + 1) = part.length + startOf parts i :=
  length_flatten_take_cons part parts i

/-- The `n`-th byte of a row belongs to the payload of one of its parts. -/
def InPayload (parts : List Bytes) (n : Nat) : Prop :=
  ∃ i < parts.length, startOf parts i + headerLength ≤ n ∧ n < startOf parts (i + 1)

/-- As many bytes as in the row, of which some in payloads and no others are different. -/
structure IsAltered (parts : List Bytes) (data : Bytes) : Prop where
  length_eq : data.length = parts.flatten.length
  ne : data ≠ parts.flatten
  inPayload : ∀ n, data[n]? ≠ parts.flatten[n]? → InPayload parts n

/-- A byte in the `i`-th part of the row is different, and none before that part. -/
structure IsFirstAltered (parts : List Bytes) (data : Bytes) (i : Nat) : Prop where
  before : ∀ n < startOf parts i, data[n]? = parts.flatten[n]?
  within : ∃ n, startOf parts i ≤ n ∧ n < startOf parts (i + 1) ∧ data[n]? ≠ parts.flatten[n]?

variable {parts segments : List Bytes} {part part' segment segment' data data' rest : Bytes}

theorem inPayload_cons (part : Bytes) (parts : List Bytes) (n : Nat) :
    InPayload (part :: parts) n ↔
      headerLength ≤ n ∧ n < part.length ∨ part.length ≤ n ∧
      InPayload parts (n - part.length) := by
  constructor
  · rintro ⟨i, hi, hstart, hend⟩
    rw [startOf_cons] at hend
    cases i with
    | zero =>
        rw [startOf_zero] at hstart hend
        exact Or.inl ⟨by omega, by omega⟩
    | succ i =>
        rw [startOf_cons] at hstart
        rw [List.length_cons] at hi
        exact Or.inr ⟨by omega, i, by omega, by omega, by omega⟩
  · rintro (⟨hheader, hlt⟩ | ⟨hle, i, hi, hstart, hend⟩)
    · refine ⟨0, Nat.succ_pos _, ?_, ?_⟩
      · rwa [startOf_zero, Nat.zero_add]
      · rwa [startOf_cons, startOf_zero, Nat.add_zero]
    · refine ⟨i + 1, Nat.succ_lt_succ hi, ?_, ?_⟩
      · rw [startOf_cons]
        omega
      · rw [startOf_cons]
        omega

theorem IsAltered.take_header (h : IsAltered (part :: parts) (part' ++ data))
    (hlength : part'.length = part.length) :
    part'.take headerLength = part.take headerLength := by
  apply List.ext_getElem?
  intro n
  rw [List.getElem?_take, List.getElem?_take]
  split
  · rename_i hheader
    by_cases hn : n < part.length
    · by_contra hne
      have hpayload : InPayload (part :: parts) n := by
        apply h.inPayload
        rwa [List.flatten_cons, List.getElem?_append_left (hlength ▸ hn),
          List.getElem?_append_left hn]
      rcases (inPayload_cons _ _ _).mp hpayload with ⟨hle, -⟩ | ⟨hle, -⟩
      · omega
      · omega
    · rw [List.getElem?_eq_none (by omega), List.getElem?_eq_none (by omega)]
  · rfl

/-- Where the first part is as it was, the others are altered. -/
theorem IsAltered.of_cons (h : IsAltered (part :: parts) (part ++ data)) :
    IsAltered parts data where
  length_eq := by
    have hlength := h.length_eq
    rw [List.flatten_cons, List.length_append, List.length_append] at hlength
    omega
  ne := by
    rintro rfl
    exact h.ne List.flatten_cons.symm
  inPayload := by
    intro n hne
    have hpayload : InPayload (part :: parts) (part.length + n) := by
      apply h.inPayload
      rwa [List.flatten_cons, List.getElem?_append_right (Nat.le_add_right _ _),
        List.getElem?_append_right (Nat.le_add_right _ _), Nat.add_sub_cancel_left]
    rcases (inPayload_cons _ _ _).mp hpayload with ⟨-, hlt⟩ | ⟨-, hpayload⟩
    · omega
    · rwa [Nat.add_sub_cancel_left] at hpayload

theorem isFirstAltered_zero (hlength : part'.length = part.length) (hne : part' ≠ part) :
    IsFirstAltered (part :: parts) (part' ++ data) 0 where
  before := fun n hn => absurd hn (Nat.not_lt_zero n)
  within := by
    have hdiffers : ∃ n : Nat, part'[n]? ≠ part[n]? := by
      by_contra hsame
      push Not at hsame
      exact hne (List.ext_getElem? hsame)
    obtain ⟨n, hn⟩ := hdiffers
    have hlt : n < part.length := by
      by_contra hle
      rw [List.getElem?_eq_none (by omega), List.getElem?_eq_none (by omega)] at hn
      exact hn rfl
    refine ⟨n, Nat.zero_le n, ?_, ?_⟩
    · rwa [startOf_cons, startOf_zero, Nat.add_zero]
    · rwa [List.flatten_cons, List.getElem?_append_left (hlength ▸ hlt),
        List.getElem?_append_left hlt]

theorem IsFirstAltered.cons {i : Nat} (h : IsFirstAltered parts data i) (part : Bytes) :
    IsFirstAltered (part :: parts) (part ++ data) (i + 1) where
  before := by
    intro n hn
    rw [startOf_cons] at hn
    rw [List.flatten_cons, List.getElem?_append, List.getElem?_append]
    split
    · rfl
    · exact h.before _ (by omega)
  within := by
    obtain ⟨n, hstart, hend, hne⟩ := h.within
    refine ⟨part.length + n, ?_, ?_, ?_⟩
    · rw [startOf_cons]
      exact Nat.add_le_add_left hstart _
    · rw [startOf_cons]
      exact Nat.add_lt_add_left hend _
    · rwa [List.flatten_cons, List.getElem?_append_right (Nat.le_add_right _ _),
        List.getElem?_append_right (Nat.le_add_right _ _), Nat.add_sub_cancel_left]

theorem count_of_ne_payload (offset : Nat) {seed length : Nat} (hseed : seed < 2 ^ 64)
    (hlength : length ≤ maxPayload) (available : Nat)
    (havailable : min length rest.length = available)
    (hne : rest.take available ≠ payload seed available) :
    count offset (header seed length ++ rest) = .error (.mismatch offset) := by
  rw [count_header_append offset hseed hlength]
  simp only [havailable]
  rw [if_pos hne]

theorem exists_header_append {seed length : Nat} {body : Bytes}
    (hlength : part.length = (header seed length ++ body).length)
    (hheader : part.take headerLength = (header seed length ++ body).take headerLength) :
    ∃ body', part = header seed length ++ body' ∧ body'.length = body.length := by
  rw [List.take_left' (length_header seed length)] at hheader
  refine ⟨part.drop headerLength, ?_, ?_⟩
  · rw [← hheader, List.take_append_drop]
  · rw [List.length_drop, hlength, List.length_append, length_header, Nat.add_sub_cancel_left]

theorem IsWhole.count_of_ne (h : IsWhole segment) (hlength : segment'.length = segment.length)
    (hheader : segment'.take headerLength = segment.take headerLength) (hne : segment' ≠ segment)
    (offset : Nat) (rest : Bytes) :
    count offset (segment' ++ rest) = .error (.mismatch offset) := by
  obtain ⟨seed, length, hseed, hle, rfl⟩ := h
  obtain ⟨body, rfl, hbody⟩ := exists_header_append hlength hheader
  rw [length_payload] at hbody
  rw [List.append_assoc]
  refine count_of_ne_payload offset hseed hle length ?_ ?_
  · rw [List.length_append]
    omega
  · rw [List.take_left' hbody]
    rintro rfl
    exact hne rfl

theorem IsTorn.count_of_ne (h : IsTorn data) (hlength : data'.length = data.length)
    (hheader : data'.take headerLength = data.take headerLength) (hne : data' ≠ data)
    (offset : Nat) :
    count offset data' = .error (.mismatch offset) := by
  cases h with
  | inHeader data hpos hlt =>
      rw [List.take_of_length_le (by omega), List.take_of_length_le (by omega)] at hheader
      exact absurd hheader hne
  | inPayload seed length available hseed hle hlt =>
      rw [take_payload seed (Nat.le_of_lt hlt)] at hlength hheader hne
      obtain ⟨body, rfl, hbody⟩ := exists_header_append hlength hheader
      rw [length_payload] at hbody
      refine count_of_ne_payload offset hseed hle available (by omega) ?_
      rw [List.take_of_length_le (Nat.le_of_eq hbody)]
      rintro rfl
      exact hne rfl

theorem IsReading.count_of_isAltered (h : IsReading data segments rest)
    (haltered : IsAltered (segments ++ [rest]) data') (offset : Nat) :
    ∃ i, IsFirstAltered (segments ++ [rest]) data' i ∧
      count offset data' = .error (.mismatch (offset + startOf (segments ++ [rest]) i)) := by
  -- The reader stays in step through the segments that are as they were, up to the first that is
  -- not.
  induction segments generalizing data data' offset with
  | nil =>
      rw [List.nil_append] at haltered ⊢
      have hlength : data'.length = rest.length := by simpa using haltered.length_eq
      have hne : data' ≠ rest := by simpa using haltered.ne
      rcases h.ending with rfl | htorn
      · exact absurd (List.eq_nil_of_length_eq_zero hlength) hne
      · rw [← List.append_nil data'] at haltered ⊢
        have hheader := haltered.take_header hlength
        refine ⟨0, isFirstAltered_zero hlength hne, ?_⟩
        rw [List.append_nil]
        exact htorn.count_of_ne hlength hheader hne offset
  | cons segment segments ih =>
      have hsegment := h.whole _ List.mem_cons_self
      have hlong : segment.length ≤ data'.length := by
        rw [haltered.length_eq, List.cons_append, List.flatten_cons, List.length_append]
        exact Nat.le_add_right _ _
      obtain ⟨segment', tail, rfl, hlength⟩ :
          ∃ segment' tail, data' = segment' ++ tail ∧ segment'.length = segment.length :=
        ⟨data'.take segment.length, data'.drop segment.length, (List.take_append_drop _ _).symm,
          List.length_take_of_le hlong⟩
      rw [List.cons_append] at haltered ⊢
      by_cases hsame : segment' = segment
      · subst hsame
        obtain ⟨i, hfirst, hcount⟩ := ih h.of_cons haltered.of_cons (offset + segment'.length)
        refine ⟨i + 1, hfirst.cons segment', ?_⟩
        rw [count_append hsegment, hcount, startOf_cons, Nat.add_assoc]
        rfl
      · exact ⟨0, isFirstAltered_zero hlength hsame,
          hsegment.count_of_ne hlength (haltered.take_header hlength) hsame offset tail⟩

/-- Bytes that are read as segments, whole ones and behind them nothing or a torn one, are refused
if they are altered in payloads, however many, and the refusal tells where the first altered
segment begins. -/
theorem verify_of_isAltered (h : IsReading data segments rest)
    (haltered : IsAltered (segments ++ [rest]) data') :
    ∃ i fault, IsFirstAltered (segments ++ [rest]) data' i ∧ verify data' = .error fault ∧
      (Fault.segment fault).family = .verification ∧ (Fault.segment fault).message =
        s!"Segment at offset {startOf (segments ++ [rest]) i} does not match its seed" := by
  obtain ⟨i, hfirst, hcount⟩ := h.count_of_isAltered haltered 0
  rw [Nat.zero_add] at hcount
  refine ⟨i, .mismatch _, hfirst, ?_, rfl, rfl⟩
  rw [verify, hcount]

/-- Two whole segments, of twenty and of nineteen bytes. -/
def sound : List Bytes :=
  [header 17 4 ++ payload 17 4, header 5 3 ++ payload 5 3]

/-- A segment of which two bytes of eight are there. -/
def cut : Bytes :=
  header 9 8 ++ (payload 9 8).take 2

theorem isReading_sound : IsReading (sound.flatten ++ cut) sound cut where
  eq := rfl
  whole := by
    refine List.forall_mem_cons.mpr ⟨?_, List.forall_mem_singleton.mpr ?_⟩
    · exact ⟨17, 4, by decide, by decide, rfl⟩
    · exact ⟨5, 3, by decide, by decide, rfl⟩
  ending := Or.inr (.inPayload 9 8 2 (by decide) (by decide) (by decide))

theorem startOf_sound (i : Nat) : startOf (sound ++ [cut]) i = [0, 20, 39].getD i 57 := by
  obtain _ | _ | _ | i := i
  · rfl
  all_goals simp [startOf, sound, cut, headerLength]

/-- The bytes with one altered in the second segment and one in the torn segment behind it. -/
def damaged : Bytes :=
  ((sound.flatten ++ cut).modify 38 (· ^^^ 1)).modify 56 (· ^^^ 1)

theorem getElem?_damaged_ne_iff (n : Nat) :
    damaged[n]? ≠ (sound ++ [cut]).flatten[n]? ↔ n = 38 ∨ n = 56 := by
  have hlength : (sound.flatten ++ cut).length = 57 := by
    simp [sound, cut, headerLength]
  have hmask : ∀ b : UInt8, b ^^^ 1 ≠ b := by
    intro b h
    have hone : b ^^^ (b ^^^ 1) = b ^^^ b := congrArg (b ^^^ ·) h
    rw [← UInt8.xor_assoc, UInt8.xor_self, UInt8.zero_xor] at hone
    exact absurd hone (by decide)
  rw [List.flatten_append, List.flatten_singleton, damaged, List.getElem?_modify,
    List.getElem?_modify]
  by_cases hn : n < 57
  · rw [List.getElem?_eq_getElem (by omega)]
    by_cases h38 : n = 38
    · simp [h38, hmask]
    · by_cases h56 : n = 56
      · simp [h56, hmask]
      · simp [h38, h56, Ne.symm h38, Ne.symm h56]
  · rw [List.getElem?_eq_none (by omega)]
    simp
    omega

theorem isAltered_damaged : IsAltered (sound ++ [cut]) damaged where
  length_eq := by simp [damaged]
  ne := by
    intro heq
    have hne := (getElem?_damaged_ne_iff 38).mpr (Or.inl rfl)
    rw [heq] at hne
    exact hne rfl
  inPayload := by
    intro n hne
    rcases (getElem?_damaged_ne_iff n).mp hne with rfl | rfl
    · exact ⟨1, by decide, by rw [startOf_sound]; decide, by rw [startOf_sound]; decide⟩
    · exact ⟨2, by decide, by rw [startOf_sound]; decide, by rw [startOf_sound]; decide⟩

/-- Of the two altered segments the first is told, which begins behind the twenty bytes of a sound
one. -/
theorem verify_of_isAltered_twice : ∃ fault, verify damaged = .error fault ∧
    (Fault.segment fault).message = "Segment at offset 20 does not match its seed" := by
  obtain ⟨i, fault, hfirst, hverify, -, hmessage⟩ :=
    verify_of_isAltered isReading_sound isAltered_damaged
  have hle : startOf (sound ++ [cut]) i ≤ 38 := by
    by_contra hlt
    exact (getElem?_damaged_ne_iff 38).mpr (Or.inl rfl) (hfirst.before 38 (by omega))
  obtain ⟨n, hstart, hend, hne⟩ := hfirst.within
  rw [getElem?_damaged_ne_iff] at hne
  obtain rfl : i = 1 := by
    rw [startOf_sound] at hle hend
    obtain _ | _ | _ | i := i
    · simp at hend
      omega
    · rfl
    · simp at hle
    · simp at hle
  rw [startOf_sound] at hmessage
  exact ⟨fault, hverify, hmessage⟩

end StorageLoad.Segment
