import StorageLoad.Proofs.Memory.Ascent

/-!
How long an old replication factor is reported.  Every entry counts the polls that are left, and a
rename takes the count along; so from the call that sets a factor on, the file is followed from
place to place, and what is told of it depends on nothing but the number of polls
(`told_after_set`).
-/

namespace StorageLoad

/-- The call asks for the factor of the file at a path. -/
def Request.asksFor (p : Path) : Request → Bool
  | getReplication q => q = p
  | _ => false

namespace Memory

open StorageLoad.Path

variable {m m' grown : Memory} {p q source target : Path} {answer : Except StoreFault Reply}

section Count

/-- What an entry counts: the factor that is reported, the one that was asked for, and the polls
until that is reported. -/
structure Count where
  reported : Value
  wanted : Value
  left : Int

def Entry.count (e : Entry) : Count :=
  { reported := e.replication, wanted := e.target, left := e.pendingPolls }

def Count.polled (c : Count) : Count :=
  if 0 < c.left then
    { c with left := c.left - 1, reported := if c.left = 1 then c.wanted else c.reported }
  else c

/-- The polls that are left are within the lag, and at their end the factor that was asked for is
reported. -/
structure Count.IsTimed (lag : Int) (c : Count) : Prop where
  nonneg : 0 ≤ c.left
  le : c.left ≤ lag
  settled : c.left = 0 → c.reported = c.wanted

variable {c : Count} {lag : Int}

theorem Entry.count_polled (e : Entry) : e.polled.count = e.count.polled := by
  by_cases hleft : 0 < e.pendingPolls
  · rw [Entry.polled, if_pos hleft, Count.polled, if_pos (show 0 < e.count.left from hleft)]
    rfl
  · rw [Entry.polled, if_neg hleft, Count.polled, if_neg (show ¬ 0 < e.count.left from hleft)]

theorem Count.IsTimed.polled (h : c.IsTimed lag) : c.polled.IsTimed lag := by
  rw [Count.polled]
  split
  · rename_i hleft
    refine ⟨Int.sub_nonneg_of_le hleft, Int.le_trans (Int.sub_le_self _ (by decide)) h.le,
      fun hzero => ?_⟩
    exact if_pos (Int.sub_eq_zero.mp hzero)
  · exact h

theorem Count.IsTimed.of_zero (h : 0 ≤ lag) (factor : Value) :
    (Count.mk factor factor 0).IsTimed lag :=
  ⟨Int.le_refl 0, h, fun _ => rfl⟩

theorem Count.IsTimed.reported_iterate_polled (h : c.IsTimed lag) (n : Nat) :
    (Count.polled^[n] c).reported = if (n : Int) < c.left then c.reported else c.wanted := by
  induction n generalizing c with
  | zero =>
      split
      · rfl
      · have hnonneg := h.nonneg
        exact h.settled (by omega)
  | succ n ih =>
      rw [Function.iterate_succ_apply, ih h.polled, Count.polled]
      split
      · dsimp only
        grind
      · rw [if_neg (by omega), if_neg (by omega)]

end Count

section Timed

variable {e : Entry}

/-- The counts of all entries are within the lag. -/
structure IsTimed (m : Memory) : Prop where
  lag : 0 ≤ m.lag
  entries : ∀ p e, m.get? p = some e → e.count.IsTimed m.lag

theorem isTimed_fresh {lag : Int} (h : 0 ≤ lag) : (fresh lag).IsTimed := by
  refine ⟨h, fun p e he => ?_⟩
  rw [get?_fresh] at he
  split at he
  · exact Option.some.inj he ▸ .of_zero h _
  · cases he

theorem lag_of_edits {W : Bytes → Prop} (h : Edits W m m') : m'.lag = m.lag := by
  induction h with
  | refl => rfl
  | tail _ hedit ih =>
      rw [← ih]
      cases hedit with
      | move source target => exact lag_move _ source target
      | erase | directory | file | append | keep => rfl

namespace IsTimed

theorem put (h : m.IsTimed) (p : Path) (e : Entry) (he : e.count.IsTimed m.lag) :
    (m.put p e).IsTimed := by
  refine ⟨h.lag, fun q d hd => ?_⟩
  rw [get?_put] at hd
  split at hd
  · exact Option.some.inj hd ▸ he
  · exact h.entries q d hd

theorem erase (h : m.IsTimed) (p : Path) : (m.erase p).IsTimed := by
  refine ⟨h.lag, fun q d hd => ?_⟩
  rw [get?_erase] at hd
  split at hd
  · cases hd
  · exact h.entries q d hd

theorem move (h : m.IsTimed) (source target : Path) : (m.move source target).IsTimed := by
  rw [Memory.move]
  split
  · exact h
  · rename_i e he
    exact (h.erase source).put target e (h.entries source e he)

theorem moveAll (h : m.IsTimed) (moves : List (Path × Path)) : (m.moveAll moves).IsTimed := by
  induction moves generalizing m with
  | nil => exact h
  | cons move moves ih => exact ih (h.move move.1 move.2)

theorem file (h : m.IsTimed) (he : m.file p = .ok e) : e.count.IsTimed m.lag :=
  h.entries p e (file_eq_ok_iff.mp he).1

theorem makeDirectories (h : m.IsTimed) (hmake : m.makeDirectories p = some (.ok grown)) :
    grown.IsTimed := by
  have hlag := lag_of_edits (edits_of_makeDirectories (W := fun _ => True) hmake)
  refine ⟨hlag ▸ h.lag, fun q e he => ?_⟩
  rw [hlag]
  rcases (of_makeDirectories hmake).2 q with hkept | ⟨-, hnew, -⟩
  · exact h.entries q e (hkept ▸ he)
  · rw [hnew] at he
    exact Option.some.inj he ▸ .of_zero h.lag _

theorem create (h : m.IsTimed) {data : Bytes} {replication blockSize : Value}
    (hcreate : m.create p data replication blockSize = some (answer, m')) : m'.IsTimed := by
  rw [Memory.create] at hcreate
  split at hcreate
  · cases hcreate
    exact h
  · split at hcreate
    · cases hcreate
    · cases hcreate
      exact h
    · rename_i grown hmake
      cases hcreate
      have hgrown := h.makeDirectories hmake
      exact hgrown.put p _ (.of_zero hgrown.lag replication)

theorem append (h : m.IsTimed) (p : Path) (data : Bytes) : (m.append p data).2.IsTimed := by
  rw [Memory.append]
  cases he : m.file p with
  | error fault => exact h
  | ok e =>
      have hcount := h.file he
      exact h.put p _ hcount

theorem delete (h : m.IsTimed) (p : Path) : (m.delete p).2.IsTimed := by
  have hrest : ((m.children p).foldl Memory.erase m).IsTimed :=
    foldl_induction IsTimed (fun m q hm => hm.erase q) _ h
  rw [Memory.delete]
  split
  · exact h
  · dsimp only
    split
    · exact hrest.erase p
    · exact hrest

theorem rename (h : m.IsTimed) (hrename : m.rename source target = some (answer, m')) :
    m'.IsTimed := by
  rcases rename_cases hrename with ⟨-, -, rfl⟩ | ⟨grown, hopened, rfl, -⟩
  · exact h
  · exact ((h.makeDirectories (of_opened? hopened).2.2).moveAll _).move source target

theorem setReplication (h : m.IsTimed) (p : Path) (factor : Value) :
    (m.setReplication p factor).2.IsTimed := by
  rw [Memory.setReplication]
  cases he : m.file p with
  | error fault => exact h
  | ok e =>
      refine h.put p _ ⟨h.lag, Int.le_refl m.lag, fun hzero => ?_⟩
      exact if_pos hzero

theorem getReplication (h : m.IsTimed) (p : Path) : (m.getReplication p).2.IsTimed := by
  rw [Memory.getReplication]
  cases he : m.file p with
  | error fault => exact h
  | ok e => exact h.put p _ (e.count_polled ▸ (h.file he).polled)

theorem mkdirs (h : m.IsTimed) (hmkdirs : m.mkdirs p = some (answer, m')) : m'.IsTimed := by
  rw [Memory.mkdirs] at hmkdirs
  split at hmkdirs
  · cases hmkdirs
  · cases hmkdirs
    exact h
  · rename_i hmake
    cases hmkdirs
    exact h.makeDirectories hmake

theorem of_answer (h : m.IsTimed) {request : Request} {result : Result}
    (hanswer : m.answer request = some result) : result.2.IsTimed := by
  cases request with
  | create p data replication blockSize => exact h.create hanswer
  | append p data =>
      cases hanswer
      exact h.append p data
  | read p length =>
      cases hanswer
      exact (read_snd m p length).symm ▸ h
  | delete p =>
      cases hanswer
      exact h.delete p
  | rename source target => exact h.rename hanswer
  | setReplication p factor =>
      cases hanswer
      exact h.setReplication p factor
  | getReplication p =>
      cases hanswer
      exact h.getReplication p
  | listdir p =>
      cases hanswer
      exact (listdir_snd m p).symm ▸ h
  | mkdirs p => exact h.mkdirs hanswer
  | isStored p =>
      cases hanswer
      exact h

end IsTimed

theorem lag_of_serve {lag : Int} {requests : List Request}
    {answers : List (Except StoreFault Reply)}
    (h : Storage.serve requests (fresh lag) = some (answers, m)) : m.lag = lag :=
  Storage.serve_induction (fun m => m.lag = lag) (fun _ => True)
    (fun _ _ _ _ hm _ hanswer =>
      (lag_of_edits (edits_of_answer (W := fun _ => True) (fun _ _ => trivial) hanswer)).trans hm)
    (fun _ _ => trivial) h rfl

theorem isTimed_of_serve {lag : Int} (hlag : 0 ≤ lag) {requests : List Request}
    {answers : List (Except StoreFault Reply)}
    (h : Storage.serve requests (fresh lag) = some (answers, m)) :
    m.IsTimed :=
  Storage.serve_induction IsTimed (fun _ => True) (fun _ _ _ _ hm _ hanswer =>
    hm.of_answer hanswer) (fun _ _ => trivial) h (isTimed_fresh hlag)

end Timed

section Follow

/-- Where the entry at a path is after one move; what stood at the target is gone. -/
def afterMove (m : Memory) (source target p : Path) : Option Path :=
  if m.contains source then if p = source then some target
    else if p = target then none else some p
  else some p

/-- Where the entry at a path is after moves made one after the other. -/
def afterMoves : Memory → List (Path × Path) → Path → Option Path
  | _, [], p => some p
  | m, (source, target) :: moves, p =>
      (m.afterMove source target p).bind ((m.move source target).afterMoves moves)

/-- Where the file at a path is after a call, as long as it is the same file with the same factor
asked for: a rename takes it along, and a call that creates or deletes it, puts something else in
its place or asks for a factor ends that. -/
def follow (m : Memory) (p : Path) : Request → Option Path
  | .create q data replication blockSize =>
      match m.create q data replication blockSize with
      | some (.ok _, _) => if q = p then none else some p
      | _ => some p
  | .delete q => if (m.delete q).2.contains p then some p else none
  | .rename source target =>
      match m.opened? source target with
      | some grown => grown.afterMoves (grown.movesBelow source target ++ [(source, target)]) p
      | none => some p
  | .setReplication q _ => if q = p then none else some p
  | _ => some p

/-- What is told of the factor of a file that is followed, from one call to the next. -/
def told : List Request → Memory → Path → List (Except StoreFault Reply)
  | [], _, _ => []
  | request :: requests, m, p =>
      match m.answer request, m.follow p request with
      | some (answer, m'), some q =>
          if request.asksFor p then answer :: told requests m' q else told requests m' q
      | _, _ => []

/-- A file is stored at the path, and it counts so. -/
def Counts (m : Memory) (p : Path) (c : Count) : Prop :=
  ∃ e, m.file p = .ok e ∧ e.count = c

variable {c : Count}

theorem Counts.of_get?_eq (h : m.Counts p c) (heq : m'.get? q = m.get? p) : m'.Counts q c := by
  obtain ⟨e, he, hcount⟩ := h
  rw [file_eq_ok_iff, ← heq, ← file_eq_ok_iff] at he
  exact ⟨e, he, hcount⟩

theorem Counts.put_of_ne (h : m.Counts p c) (hne : p ≠ q) (e : Entry) : (m.put q e).Counts p c :=
  h.of_get?_eq (by rw [get?_put, if_neg hne])

theorem counts_put {e : Entry} (hfile : e.isDirectory = false) : (m.put p e).Counts p e.count :=
  ⟨e, file_eq_ok_iff.mpr ⟨by rw [get?_put, if_pos rfl], hfile⟩, rfl⟩

theorem Counts.makeDirectories (h : m.Counts p c)
    (hmake : m.makeDirectories q = some (.ok grown)) :
    grown.Counts p c := by
  obtain ⟨e, he, -⟩ := id h
  have hget := (file_eq_ok_iff.mp he).1
  exact h.of_get?_eq ((get?_of_makeDirectories hmake hget).trans hget.symm)

theorem get?_move_of_afterMove (h : m.afterMove source target p = some q) :
    (m.move source target).get? q = m.get? p := by
  rw [afterMove] at h
  split at h
  · rename_i hstored
    obtain ⟨e, he⟩ := contains_iff.mp hstored
    rw [get?_move m he]
    split at h
    · rename_i hp
      rw [← Option.some.inj h, if_pos rfl, hp, he]
    · rename_i hs
      split at h
      · cases h
      · rename_i ht
        obtain rfl := Option.some.inj h
        rw [if_neg ht, if_neg hs]
  · rename_i hgone
    obtain rfl := Option.some.inj h
    rw [move_of_not_contains hgone]

theorem get?_moveAll_of_afterMoves {moves : List (Path × Path)}
    (h : m.afterMoves moves p = some q) :
    (m.moveAll moves).get? q = m.get? p := by
  induction moves generalizing m p with
  | nil =>
      obtain rfl := Option.some.inj h
      rfl
  | cons move moves ih =>
      obtain ⟨mid, hmid, hrest⟩ := Option.bind_eq_some_iff.mp h
      exact (ih hrest).trans (get?_move_of_afterMove hmid)

theorem Counts.create (h : m.Counts p c) {data : Bytes} {replication blockSize : Value}
    (hcreate : m.create q data replication blockSize = some (answer, m'))
    (hfollow : m.follow p (.create q data replication blockSize) = some target) :
    m'.Counts target c := by
  rw [follow, hcreate] at hfollow
  rw [Memory.create] at hcreate
  split at hcreate
  · cases hcreate
    cases hfollow
    exact h
  · split at hcreate
    · cases hcreate
    · cases hcreate
      cases hfollow
      exact h
    · rename_i grown hmake
      cases hcreate
      dsimp only at hfollow
      split at hfollow
      · cases hfollow
      · rename_i hne
        cases hfollow
        exact (h.makeDirectories hmake).put_of_ne (Ne.symm hne) _

theorem Counts.append (h : m.Counts p c) (q : Path) (data : Bytes) :
    (m.append q data).2.Counts p c := by
  rw [Memory.append]
  cases he : m.file q with
  | error fault => exact h
  | ok e =>
      rcases eq_or_ne p q with rfl | hne
      · obtain ⟨d, hd, rfl⟩ := h
        obtain rfl : e = d := Except.ok.inj (he.symm.trans hd)
        exact counts_put (file_eq_ok_iff.mp he).2
      · exact h.put_of_ne hne _

theorem get?_of_delete {e : Entry} (h : (m.delete q).2.get? p = some e) : m.get? p = some e := by
  have herase : ∀ (n : Memory) r, (∀ p e, n.get? p = some e → m.get? p = some e) →
      ∀ p e, (n.erase r).get? p = some e → m.get? p = some e := by
    intro n r hn p e he
    rw [get?_erase] at he
    split at he
    · cases he
    · exact hn p e he
  have hrest := foldl_induction _ herase (m.children q) fun _ _ => id
  rw [Memory.delete] at h
  split at h
  · exact h
  · dsimp only at h
    split at h
    · exact herase _ q hrest p e h
    · exact hrest p e h

theorem Counts.delete (h : m.Counts p c) (hfollow : m.follow p (.delete q) = some target) :
    (m.delete q).2.Counts target c := by
  rw [follow] at hfollow
  split at hfollow
  · rename_i hstays
    obtain rfl := Option.some.inj hfollow
    obtain ⟨e, he⟩ := contains_iff.mp hstays
    exact h.of_get?_eq (he.trans (get?_of_delete he).symm)
  · cases hfollow

theorem Counts.rename (h : m.Counts p c) (hrename : m.rename source target = some (answer, m'))
    (hfollow : m.follow p (.rename source target) = some q) : m'.Counts q c := by
  rw [follow] at hfollow
  rcases rename_cases hrename with ⟨-, hclosed, rfl⟩ | ⟨grown, hopened, rfl, -⟩
  · rw [hclosed] at hfollow
    cases hfollow
    exact h
  · rw [hopened] at hfollow
    have hget := get?_moveAll_of_afterMoves hfollow
    rw [moveAll, List.foldl_append] at hget
    exact (h.makeDirectories (of_opened? hopened).2.2).of_get?_eq hget

theorem counts_of_setReplication {e : Entry} (he : m.file p = .ok e) (factor : Value) :
    ∃ m', m.setReplication p factor = (.ok .yes, m') ∧
      m'.Counts p ⟨if m.lag = 0 then factor else e.replication, factor, m.lag⟩ := by
  rw [Memory.setReplication, he]
  exact ⟨_, rfl, counts_put (file_eq_ok_iff.mp he).2⟩

theorem Counts.setReplication (h : m.Counts p c) {factor : Value}
    (hfollow : m.follow p (.setReplication q factor) = some target) :
    (m.setReplication q factor).2.Counts target c := by
  rw [follow] at hfollow
  split at hfollow
  · cases hfollow
  · rename_i hne
    obtain rfl := Option.some.inj hfollow
    rw [Memory.setReplication]
    cases m.file q with
    | error fault => exact h
    | ok e => exact h.put_of_ne (Ne.symm hne) _

theorem Counts.getReplication_of_ne (h : m.Counts p c) (hne : p ≠ q) :
    (m.getReplication q).2.Counts p c := by
  rw [Memory.getReplication]
  cases m.file q with
  | error fault => exact h
  | ok e => exact h.put_of_ne hne _

theorem Counts.getReplication (h : m.Counts p c) :
    (m.getReplication p).1 = .ok (.value c.polled.reported) ∧
    (m.getReplication p).2.Counts p c.polled := by
  obtain ⟨e, he, rfl⟩ := h
  rw [Memory.getReplication, he, ← e.count_polled]
  exact ⟨rfl, counts_put (e.isDirectory_polled.trans (file_eq_ok_iff.mp he).2)⟩

theorem Counts.mkdirs (h : m.Counts p c) (hmkdirs : m.mkdirs q = some (answer, m')) :
    m'.Counts p c := by
  rw [Memory.mkdirs] at hmkdirs
  split at hmkdirs
  · cases hmkdirs
  · cases hmkdirs
    exact h
  · rename_i hmake
    cases hmkdirs
    exact h.makeDirectories hmake

theorem Counts.of_answer (h : m.Counts p c) {request : Request}
    (hanswer : m.answer request = some (answer, m')) (hfollow : m.follow p request = some q) :
    if request.asksFor p then answer = .ok (.value c.polled.reported) ∧ m'.Counts q c.polled
      else m'.Counts q c := by
  cases request with
  | create r data replication blockSize => exact h.create hanswer hfollow
  | append r data =>
      obtain rfl := Option.some.inj hfollow
      obtain rfl := congrArg Prod.snd (Option.some.inj hanswer)
      exact h.append r data
  | read r length =>
      obtain rfl := Option.some.inj hfollow
      obtain rfl := congrArg Prod.snd (Option.some.inj hanswer)
      exact (read_snd m r length).symm ▸ h
  | delete r =>
      obtain rfl := congrArg Prod.snd (Option.some.inj hanswer)
      exact h.delete hfollow
  | rename source target => exact h.rename hanswer hfollow
  | setReplication r factor =>
      obtain rfl := congrArg Prod.snd (Option.some.inj hanswer)
      exact h.setReplication hfollow
  | getReplication r =>
      obtain rfl := Option.some.inj hfollow
      have heq : m.getReplication r = (answer, m') := Option.some.inj hanswer
      by_cases hr : r = p
      · subst hr
        simpa [Request.asksFor, heq] using h.getReplication
      · simpa [Request.asksFor, hr, heq] using h.getReplication_of_ne (Ne.symm hr)
  | listdir r =>
      obtain rfl := Option.some.inj hfollow
      obtain rfl := congrArg Prod.snd (Option.some.inj hanswer)
      exact (listdir_snd m r).symm ▸ h
  | mkdirs r =>
      obtain rfl := Option.some.inj hfollow
      exact h.mkdirs hanswer
  | isStored r =>
      obtain rfl := Option.some.inj hfollow
      obtain rfl := congrArg Prod.snd (Option.some.inj hanswer)
      exact h

theorem Counts.told (h : m.Counts p c) {requests : List Request} {k : Nat}
    (htold : (Memory.told requests m p)[k]? = some answer) :
    answer = .ok (.value (Count.polled^[k + 1] c).reported) := by
  induction requests generalizing m p c k with
  | nil => cases htold
  | cons request requests ih =>
      rw [Memory.told] at htold
      split at htold
      · rename_i first m' q hanswer hfollow
        have hstep := h.of_answer hanswer hfollow
        split at htold
        · rename_i hasks
          rw [if_pos hasks] at hstep
          cases k with
          | zero => exact (Option.some.inj htold).symm.trans hstep.1
          | succ k => exact ih hstep.2 htold
        · rename_i hasks
          rw [if_neg hasks] at hstep
          exact ih hstep htold
      · cases htold

end Follow

section Tree

/-- Moves of different entries to different free places. -/
structure AreFree (m : Memory) (moves : List (Path × Path)) : Prop where
  stored : ∀ move ∈ moves, m.contains move.1
  free : ∀ move ∈ moves, ¬ m.contains move.2
  sources : (moves.map (·.1)).Nodup
  targets : (moves.map (·.2)).Nodup

namespace AreFree

variable {moves rest : List (Path × Path)}

theorem of_append (h : m.AreFree (moves ++ rest)) : m.AreFree moves where
  stored := fun move hmove => h.stored move (List.mem_append_left _ hmove)
  free := fun move hmove => h.free move (List.mem_append_left _ hmove)
  sources := h.sources.sublist ((List.sublist_append_left _ _).map _)
  targets := h.targets.sublist ((List.sublist_append_left _ _).map _)

theorem contains_move (h : m.AreFree ((source, target) :: moves)) (hp : m.contains p)
    (hne : p ≠ source) :
    (m.move source target).contains p := by
  obtain ⟨e, he⟩ := contains_iff.mp (h.stored _ List.mem_cons_self)
  have htarget : p ≠ target := fun heq => h.free _ List.mem_cons_self (heq ▸ hp)
  rwa [contains_iff, get?_move m he, if_neg htarget, if_neg hne, ← contains_iff]

theorem tail (h : m.AreFree ((source, target) :: moves)) :
    (m.move source target).AreFree moves := by
  have hsources := List.nodup_cons.mp h.sources
  have htargets := List.nodup_cons.mp h.targets
  refine ⟨fun move hmove => ?_, fun move hmove => ?_, hsources.2, htargets.2⟩
  · refine h.contains_move (h.stored move (List.mem_cons_of_mem _ hmove)) ?_
    rintro rfl
    exact hsources.1 (List.mem_map.mpr ⟨move, hmove, rfl⟩)
  · obtain ⟨e, he⟩ := contains_iff.mp (h.stored _ List.mem_cons_self)
    have hne : move.2 ≠ target := by
      rintro rfl
      exact htargets.1 (List.mem_map.mpr ⟨move, hmove, rfl⟩)
    rw [not_contains_iff, get?_move m he, if_neg hne,
      not_contains_iff.mp (h.free move (List.mem_cons_of_mem _ hmove)), ite_self]

theorem afterMoves_eq (h : m.AreFree moves) (hp : m.contains p) :
    (∀ q, (p, q) ∈ moves → m.afterMoves moves p = some q) ∧
      ((∀ q, (p, q) ∉ moves) → m.afterMoves moves p = some p) := by
  induction moves generalizing m p with
  | nil => simp [afterMoves]
  | cons move moves ih =>
      obtain ⟨source, target⟩ := move
      have hstored := h.stored _ List.mem_cons_self
      have hfree := h.free _ List.mem_cons_self
      rw [afterMoves, afterMove, if_pos hstored]
      by_cases hps : p = source
      · subst hps
        rw [if_pos rfl, Option.bind_some]
        obtain ⟨e, he⟩ := contains_iff.mp hstored
        have hthere : (m.move p target).contains target := by
          rw [contains_iff, get?_move m he, if_pos rfl]
          exact ⟨e, rfl⟩
        rw [(ih h.tail hthere).2 fun q hq =>
          hfree (h.stored (target, q) (List.mem_cons_of_mem _ hq))]
        constructor
        · intro q hq
          rcases List.mem_cons.mp hq with heq | hq
          · rw [(Prod.mk.inj heq).2]
          · exact absurd (List.mem_map_of_mem hq) (List.nodup_cons.mp h.sources).1
        · exact fun hnot => absurd List.mem_cons_self (hnot target)
      · have hpt : p ≠ target := fun heq => hfree (heq ▸ hp)
        rw [if_neg hps, if_neg hpt, Option.bind_some]
        obtain ⟨hmoved, hother⟩ := ih h.tail (h.contains_move hp hps)
        constructor
        · intro q hq
          rcases List.mem_cons.mp hq with heq | hq
          · exact absurd (Prod.mk.inj heq).1 hps
          · exact hmoved q hq
        · exact fun hnot => hother fun q hq => hnot q (List.mem_cons_of_mem _ hq)

end AreFree

section Moves

variable (hs : m.IsSorted) (hsource : source.IsBare)

include hs hsource

theorem mem_movesBelow_iff : (p, q) ∈ m.movesBelow source target ↔
    ∃ s : Path, s.IsTaken ∧ s ≠ [] ∧ p = source ++ s ∧ q = target ++ s ∧ m.contains p := by
  rw [movesBelow, List.mem_map]
  constructor
  · rintro ⟨child, hchild, heq⟩
    obtain ⟨rfl, rfl⟩ := Prod.mk.inj heq
    obtain ⟨s, htaken, hnil, rfl, hstored⟩ := (mem_children_bare_iff hs hsource).mp hchild
    exact ⟨s, htaken, hnil, rfl, by rw [List.drop_left], hstored⟩
  · rintro ⟨s, htaken, hnil, rfl, rfl, hstored⟩
    exact ⟨_, (mem_children_bare_iff hs hsource).mpr ⟨s, htaken, hnil, rfl,
      hstored⟩, by rw [List.drop_left]⟩

theorem mem_moves_iff (hstored : m.contains source) :
    (p, q) ∈ m.movesBelow source target ++ [(source, target)] ↔
      ∃ s : Path, s.IsTaken ∧ p = source ++ s ∧ q = target ++ s ∧ m.contains p := by
  rw [List.mem_append, mem_movesBelow_iff hs hsource, List.mem_singleton]
  constructor
  · rintro (⟨s, htaken, -, hs⟩ | heq)
    · exact ⟨s, htaken, hs⟩
    · obtain ⟨rfl, rfl⟩ := Prod.mk.inj heq
      exact ⟨[], isTaken_nil, by simpa using hstored⟩
  · rintro ⟨s, htaken, rfl, rfl, hp⟩
    by_cases hnil : s = []
    · subst hnil
      exact .inr (by simp)
    · exact .inl ⟨s, htaken, hnil, rfl, rfl, hp⟩

theorem areFree_moves (hstored : m.contains source)
    (hfree : ∀ s : Path, s.IsTail → ¬ m.contains (target ++ s)) :
    m.AreFree (m.movesBelow source target ++ [(source, target)]) := by
  have hsources : ((m.movesBelow source target ++ [(source, target)]).map (·.1)).Nodup := by
    rw [List.map_append, movesBelow, List.map_map]
    refine List.nodup_append.mpr ⟨(List.map_id _).symm ▸ nodup_children hs source,
      List.nodup_singleton _, ?_⟩
    rintro p hp q hq rfl
    obtain rfl := List.mem_singleton.mp hq
    obtain ⟨child, hchild, heq⟩ := List.mem_map.mp hp
    obtain ⟨s, -, hnil, rfl, -⟩ := (mem_children_bare_iff hs hsource).mp hchild
    exact hnil (List.self_eq_append_right.mp heq.symm)
  constructor
  · rintro ⟨p, q⟩ hmove
    obtain ⟨s, -, -, -, hp⟩ := (mem_moves_iff hs hsource hstored).mp hmove
    exact hp
  · rintro ⟨p, q⟩ hmove
    obtain ⟨s, htaken, -, rfl, -⟩ := (mem_moves_iff hs hsource hstored).mp hmove
    exact hfree s htaken.1
  · exact hsources
  · refine (hsources.of_map _).map_on ?_
    rintro ⟨p, q⟩ hp ⟨p', q'⟩ hp' heq
    obtain ⟨s, -, rfl, rfl, -⟩ := (mem_moves_iff hs hsource hstored).mp hp
    obtain ⟨t, -, rfl, rfl, -⟩ := (mem_moves_iff hs hsource hstored).mp hp'
    rw [(List.append_right_inj target).mp heq]

theorem contains_moveAll_movesBelow (hstored : m.contains source)
    (hfree : ∀ s : Path, s.IsTail → ¬ m.contains (target ++ s)) :
    (m.moveAll (m.movesBelow source target)).contains source := by
  have hstays :=
    ((areFree_moves hs hsource hstored hfree).of_append.afterMoves_eq hstored).2 fun q hq => by
    obtain ⟨s, -, hnil, heq, -⟩ := (mem_movesBelow_iff hs hsource).mp hq
    exact hnil (List.self_eq_append_right.mp heq)
  rw [contains_congr (get?_moveAll_of_afterMoves hstays)]
  exact hstored

end Moves

theorem HasParents.not_contains_of_opened? (h : m.HasParents)
    (hopened : m.opened? source target = some grown) (htarget : target.IsBare)
    (hup : target.directory ≠ target) {s : Path} (hs : s.IsTail) :
    ¬ grown.contains (target ++ s) := by
  obtain ⟨-, hfree, hmake⟩ := of_opened? hopened
  have hnone := h.get?_eq_none_of_tail htarget (not_contains_iff.mp hfree) hs
  rcases (of_makeDirectories hmake).2 (target ++ s) with hkept | ⟨-, -, -, n, hn⟩
  · rw [not_contains_iff, hkept, hnone]
  · have hle := (isPrefix_iterate target.directory n).length_le
    have hlt := directory_length_lt hup
    rw [← hn, List.length_append] at hle
    omega

theorem IsTree.isTaken_iff (h : m.IsTree) (hsource : source.IsBare) (hp : m.contains p) :
    (p = source ∨ source ++ ['/'] <+: p) ↔ ∃ s : Path, s.IsTaken ∧ p = source ++ s := by
  constructor
  · rintro (rfl | ⟨rest, rfl⟩)
    · exact ⟨[], isTaken_nil, (List.append_nil p).symm⟩
    · refine ⟨'/' :: rest, ⟨Or.inr rfl, ?_⟩, by simp⟩
      intro heq
      obtain rfl := (List.cons.inj heq).2
      rw [List.append_nil] at hp
      have hstrip := ((h.isNormal hp).isBare (hsource.append_ne_slash _)).strip
      rw [stripSlashes_append_slash, hsource.strip] at hstrip
      exact List.cons_ne_nil _ _ (List.self_eq_append_right.mp hstrip)
  · rintro ⟨s, ⟨rfl | hhead, -⟩, rfl⟩
    · exact .inl (List.append_nil source)
    · obtain ⟨rest, rfl⟩ := List.head?_eq_some_iff.mp hhead
      exact .inr ⟨rest, by simp⟩

theorem IsTree.follow_rename (h : m.IsTree) (hs : m.IsSorted) (hsource : source.IsNormal)
    (hne : source ≠ ['/']) (htarget : target.IsNormal) (hp : m.contains p)
    (hrename : m.rename source target = some (answer, m')) :
    (answer = .ok .yes → m.follow p (.rename source target) =
        some (if p = source ∨ source ++ ['/'] <+: p then target ++ p.drop source.length else p)) ∧
      (answer ≠ .ok .yes → m.follow p (.rename source target) = some p) := by
  rw [follow]
  rcases rename_cases hrename with ⟨hno, hclosed, rfl⟩ | ⟨grown, hopened, rfl, hanswer⟩
  · rw [hclosed]
    exact ⟨fun hyes => absurd hyes hno, fun _ => rfl⟩
  rw [hopened]
  dsimp only
  obtain ⟨hstored, hfree, hmake⟩ := of_opened? hopened
  have hbare := hsource.isBare hne
  have htop : target ≠ ['/'] := by
    rintro rfl
    exact hfree (HasDirectory.contains h.root)
  have hsorted := hs.of_edits (edits_of_makeDirectories hmake)
  have hkept : ∀ q, m.contains q → grown.contains q := by
    intro q hq
    obtain ⟨e, he⟩ := contains_iff.mp hq
    exact contains_iff.mpr ⟨e, get?_of_makeDirectories hmake he⟩
  have hthere := hkept source hstored
  have hopen : ∀ s : Path, s.IsTail → ¬ grown.contains (target ++ s) := fun s hs =>
    h.hasParents.not_contains_of_opened? hopened (htarget.isBare htop)
      (htarget.directory_ne htop) hs
  have hlast := contains_moveAll_movesBelow hsorted hbare hthere hopen
  obtain ⟨hmoved, hother⟩ := (areFree_moves hsorted hbare hthere hopen).afterMoves_eq (hkept p hp)
  refine ⟨fun _ => ?_, fun hno => absurd (hanswer.resolve_right (not_not_intro hlast)) hno⟩
  split
  · rename_i hbelow
    obtain ⟨s, htaken, rfl⟩ := (h.isTaken_iff hbare hp).mp hbelow
    rw [List.drop_left]
    exact hmoved _ ((mem_moves_iff hsorted hbare hthere).mpr ⟨s, htaken, rfl, rfl, hkept _ hp⟩)
  · rename_i hout
    refine hother fun q hq => hout ?_
    obtain ⟨s, htaken, heq, -, -⟩ := (mem_moves_iff hsorted hbare hthere).mp hq
    exact (h.isTaken_iff hbare hp).mpr ⟨s, htaken, heq⟩

end Tree

/-- After every history of calls each entry has a count within the lag that ends with the factor
that was asked for.  When the factor of a file is set, the old one is told to so many polls as are
fewer than the lag, and the new one to all others, as long as the file can be followed.  In a tree
a rename does not end that: the file goes along with the path that is renamed. -/
theorem told_after_set {lag : Int} (hlag : 0 ≤ lag) {requests : List Request}
    {answers : List (Except StoreFault Reply)}
    (h : Storage.serve requests (fresh lag) = some (answers, m)) :
    (∀ p e, m.get? p = some e →
        0 ≤ e.pendingPolls ∧ e.pendingPolls ≤ lag ∧
        (e.pendingPolls = 0 → e.replication = e.target)) ∧
      (∀ p e factor, m.file p = .ok e → ∃ m', m.setReplication p factor = (.ok .yes, m') ∧
        ∀ later k (answer : Except StoreFault Reply), (told later m' p)[k]? = some answer →
          answer = .ok (.value (if ((k + 1 : Nat) : Int) < lag then e.replication else factor))) ∧
      (m.IsTree → ∀ (source target p : Path) answer m', source.IsNormal → source ≠ ['/'] →
        target.IsNormal → m.contains p → m.rename source target = some (answer, m') →
          (answer = .ok .yes → m.follow p (.rename source target) =
            some (if p = source ∨
              source ++ ['/'] <+: p then target ++ p.drop source.length else p)) ∧
          (answer ≠ .ok .yes → m.follow p (.rename source target) = some p)) := by
  have hm := isTimed_of_serve hlag h
  obtain rfl : m.lag = lag := lag_of_serve h
  refine ⟨fun p e he => ?_, fun p e factor he => ?_, ?_⟩
  · obtain ⟨hnonneg, hle, hsettled⟩ := hm.entries p e he
    exact ⟨hnonneg, hle, hsettled⟩
  · obtain ⟨m', hm', hcounts⟩ := counts_of_setReplication he factor
    refine ⟨m', hm', fun later k answer htold => ?_⟩
    have htimed : Count.IsTimed m.lag ⟨if m.lag = 0 then factor else e.replication,
        factor, m.lag⟩ :=
      ⟨hlag, Int.le_refl _, fun hzero => if_pos hzero⟩
    rw [hcounts.told htold, htimed.reported_iterate_polled]
    dsimp only
    split
    · rw [if_neg (by omega)]
    · rfl
  · intro htree source target p answer m' hsource hne htarget hp hrename
    exact htree.follow_rename (isSorted_of_serve h) hsource hne htarget hp hrename

/-- A poll, a rename of a directory above the file, more data, and another poll. -/
def polledTwice : List Request :=
  [.getReplication (ofNames [['a'], ['x'], ['f']]), .rename (ofNames [['a']]) (ofNames [['b']]),
    .append (ofNames [['b'], ['x'], ['f']]) [4], .getReplication (ofNames [['b'], ['x'], ['f']])]

/-- The count of an earlier factor is not over when another one is asked for. -/
theorem told_after_set_neighbours : ∃ answers m m' old,
    Storage.serve neighbours (fresh 2) = some (answers, m) ∧
      m.setReplication (ofNames [['a'], ['x'], ['f']]) (.int 5) = (.ok .yes, m') ∧
      old.whole? = some 3 ∧
      told polledTwice m' (ofNames [['a'], ['x'], ['f']]) =
        [.ok (.value old), .ok (.value (.int 5))] := by
  obtain ⟨answers, m, hserve, -⟩ := Storage.exists_serve IsOrderly Request.RespectsTree
    (fun request m hm hr => hm.exists_answer hr) respectsTree_of_mem_neighbours
    ⟨isSorted_fresh 2, isTree_fresh 2⟩
  have hlook : (Storage.serve neighbours (fresh 2)).map (fun result =>
      ((result.2.file (ofNames [['a'], ['x'], ['f']])).toOption.bind fun e =>
        e.replication.whole?,
        (told polledTwice (result.2.setReplication (ofNames [['a'], ['x'], ['f']]) (.int 5)).2
          (ofNames [['a'], ['x'], ['f']])).length)) = some (some 3, 2) := by
    decide +kernel
  rw [hserve] at hlook
  obtain ⟨hold, hlength⟩ := Prod.mk.inj (Option.some.inj hlook)
  dsimp only at hold hlength
  cases hfile : m.file (ofNames [['a'], ['x'], ['f']]) with
  | error fault =>
      rw [hfile] at hold
      cases hold
  | ok e =>
      rw [hfile] at hold
      obtain ⟨m', hm', htold⟩ := (told_after_set (by decide) hserve).2.1 _ _ (.int 5) hfile
      rw [hm'] at hlength
      obtain ⟨first, second, heq⟩ := List.length_eq_two.mp hlength
      have hfirst := htold polledTwice 0 first (by rw [heq]; rfl)
      have hsecond := htold polledTwice 1 second (by rw [heq]; rfl)
      rw [if_pos (by decide)] at hfirst
      rw [if_neg (by decide)] at hsecond
      exact ⟨answers, m, m', e.replication, hserve, hm', hold, by rw [heq, hfirst, hsecond]⟩

end Memory

end StorageLoad
