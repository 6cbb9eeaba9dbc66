import StorageLoad.Config.Options

/-!
What is checked when options are read.  Every bound that a setting must not fall below holds for a
configuration that is made, and the pause between operations is not among those to be selected
(`isValid_of_settings`).
-/

namespace StorageLoad

/-- The bounds of a configuration, and that no pause is to be selected. -/
structure Settings.IsValid {𝕜 : Type} (c : Settings 𝕜) : Prop where
  seed : ∀ n ∈ c.seed, -2 ^ 63 ≤ n
  pause : ∀ range ∈ c.pause, 0 ≤ range.lower
  totalOps : ∀ n ∈ c.totalOps, 0 ≤ n
  kinds : ∀ s ∈ c.operations, s.kind ≠ .sleep
  fileCount : 1 ≤ c.fileCount
  dirSize : 1 ≤ c.dirSize
  blockSize : 0 ≤ c.blockSize.lower
  writeSize : 0 ≤ c.writeSize.lower
  appendSize : 0 ≤ c.appendSize.lower
  readSize : 0 ≤ c.readSize.lower
  replication : 1 ≤ c.replication.lower
  pollMs : 1 ≤ c.pollMs
  timeoutMs : 0 ≤ c.timeoutMs
  workers : 1 ≤ c.workers

namespace Config

open Outcome

theorem le_of_int {name : String} {minimum n : Int} {v : Value} (h : int name minimum v = .ok n) :
    minimum ≤ n := by
  unfold int at h
  split at h
  · obtain ⟨_, -, h⟩ := exists_of_bind h
    cases h
  · obtain ⟨_, -, h⟩ := exists_of_bind h
    cases h
  · dsimp only at h
    split at h
    · split at h
      · obtain ⟨_, -, h⟩ := exists_of_bind h
        cases h
      · cases h
    · split at h
      · cases h
      · rename_i hle
        obtain rfl := Except.ok.inj h
        exact Int.not_lt.mp hle

theorem exists_of_range {parse : Value → Outcome Int} {minimum : Int} {v : Value} {range : Range}
    (h : Config.range parse minimum v = .ok range) :
    ∃ a b, twoEnds? (rangeEnds v) = some (a, b) ∧ parse a = .ok range.lower ∧
      parse b = .ok range.upper ∧ minimum ≤ range.lower := by
  rw [Config.range] at h
  split at h
  · obtain ⟨_, -, h⟩ := exists_of_bind h
    cases h
  · rename_i a b hends
    split at h
    · split at h
      · obtain ⟨_, -, h⟩ := exists_of_bind h
        cases h
      · cases h
    · rename_i hpair
      obtain ⟨_, hlower, hpair⟩ := exists_of_bind hpair
      obtain ⟨_, hupper, hpair⟩ := exists_of_bind hpair
      obtain ⟨rfl, rfl⟩ := Prod.mk.inj (Except.ok.inj hpair)
      split at h
      · obtain ⟨_, -, h⟩ := exists_of_bind h
        cases h
      · rename_i hle
        rw [Range.between] at h
        split at h
        · obtain rfl := Except.ok.inj h
          exact ⟨a, b, hends, hlower, hupper, Int.not_lt.mp hle⟩
        · cases h

theorem le_of_range {parse : Value → Outcome Int} {minimum : Int} {v : Value} {range : Range}
    (h : Config.range parse minimum v = .ok range) : minimum ≤ range.lower := by
  obtain ⟨_, _, -, -, -, hle⟩ := exists_of_range h
  exact hle

end Config

namespace Options

open Outcome Config

theorem of_readIf {α : Type} {options : Options} {name : String} {read : Value → Outcome α}
    {result : Option α} (h : options.readIf name read = .ok result) :
    ∀ a ∈ result, ∃ v, read v = .ok a := by
  intro a ha
  obtain rfl := ha
  rw [readIf] at h
  split at h
  · obtain ⟨b, hread, hb⟩ := exists_of_bind h
    obtain rfl := Option.some.inj (Except.ok.inj hb)
    exact ⟨_, hread⟩
  · cases h

theorem ne_sleep_of_operation {entry : Value × Value} {kind : Kind} {settings : Options}
    (h : operation entry = .ok (kind, settings)) : kind ≠ .sleep := by
  obtain ⟨name, -, h⟩ := exists_of_bind h
  split at h
  · cases h
  · split at h
    · cases h
    · rename_i hkind
      obtain ⟨extra, -, h⟩ := exists_of_bind h
      split at h
      · obtain ⟨rfl, -⟩ := Prod.mk.inj (Except.ok.inj h)
        exact hkind
      · cases h

theorem kinds_of_operations {options : Options} {totalOps : Option Int}
    {specs : List (Spec Float)} (h : options.operations totalOps = .ok specs) :
    ∀ s ∈ specs, s.kind ≠ .sleep := by
  intro s hs
  unfold operations at h
  dsimp only at h
  split at h
  · obtain ⟨entries, hentries, h⟩ := exists_of_bind h
    obtain ⟨percents, -, h⟩ := exists_of_bind h
    obtain ⟨given, -, h⟩ := exists_of_bind h
    have hmade : ∃ limits, ((entries.zip (percents.zip limits)).mapM fun entry => do
        return Spec.mk entry.1.1 entry.2.1 (← curve entry.1.1 entry.1.2) entry.2.2) =
          .ok specs := by
      split at h
      · obtain ⟨limits, -, h⟩ := exists_of_bind h
        exact ⟨_, h⟩
      · exact ⟨_, h⟩
    obtain ⟨limits, hmade⟩ := hmade
    obtain ⟨⟨⟨kind, settings⟩, percent, maxCount⟩, hmem, hspec⟩ := exists_of_mapM hmade s hs
    obtain ⟨curve, -, hspec⟩ := exists_of_bind hspec
    obtain rfl := Except.ok.inj hspec
    obtain ⟨entry, -, hentry⟩ := exists_of_mapM hentries _ (List.of_mem_zip hmem).1
    exact ne_sleep_of_operation hentry
  · cases h

/-- What each setting of a configuration is read from. -/
structure IsReadAs (options : Options) (c : Settings Float) : Prop where
  names : ∃ extra, unknown names options = .ok extra ∧ extra.isEmpty
  durationMs : options.durationMs = .ok c.durationMs
  seed : options.readIf "seed" (int "seed" (-2 ^ 63)) = .ok c.seed
  pause : options.readIf "sleep" (range integer 0) = .ok c.pause
  exitOnError : bool (options.getD "exit_on_error" (.bool false)) = .ok c.exitOnError
  totalOps : options.readIf "ops" (int "ops" 0) = .ok c.totalOps
  operations : options.operations c.totalOps = .ok c.operations
  baseDir : (options.getD "base_dir" (.text "/test/slive")).toTextOutcome = .ok c.baseDir
  fileCount : int "files" 1 (options.getD "files" (.int 10)) = .ok c.fileCount
  dirSize : int "dir_size" 1 (options.getD "dir_size" (.int 32)) = .ok c.dirSize
  blockSize : range size 0 (options.getD "block_size" (ends (64 * mebibyte) (64 * mebibyte))) =
    .ok c.blockSize
  writeSize : range size 0 (options.getD "write_size" (ends (64 * mebibyte) (64 * mebibyte))) =
    .ok c.writeSize
  appendSize : range size 0 (options.getD "append_size" (ends mebibyte mebibyte)) =
    .ok c.appendSize
  readSize : range size 0 (options.getD "read_size" (ends (64 * mebibyte) (64 * mebibyte))) =
    .ok c.readSize
  replication : range integer 1 (options.getD "replication" (ends 1 3)) = .ok c.replication
  pollMs : int "replication_poll" 1 (options.getD "replication_poll" (.int 100)) = .ok c.pollMs
  timeoutMs : int "replication_timeout" 0 (options.getD "replication_timeout" (.int 60000)) =
    .ok c.timeoutMs
  workers : int "workers" 1 (options.getD "workers" (.int 10)) = .ok c.workers
  resultFile : options.readIf "result_file" Value.toTextOutcome = .ok c.resultFile

theorem isReadAs_of_settings {options : Options} {c : Settings Float}
    (h : options.settings = .ok c) :
    options.IsReadAs c := by
  unfold settings at h
  obtain ⟨extra, hextra, h⟩ := exists_of_bind h
  split at h
  · cases h
  · rename_i hknown
    obtain ⟨totalOps, htotalOps, h⟩ := exists_of_bind h
    obtain ⟨blockSize, hblockSize, h⟩ := exists_of_bind h
    obtain ⟨writeSize, hwriteSize, h⟩ := exists_of_bind h
    obtain ⟨appendSize, happendSize, h⟩ := exists_of_bind h
    obtain ⟨readSize, hreadSize, h⟩ := exists_of_bind h
    obtain ⟨duration, hduration, h⟩ := exists_of_bind h
    obtain ⟨seed, hseed, h⟩ := exists_of_bind h
    obtain ⟨pause, hpause, h⟩ := exists_of_bind h
    obtain ⟨exitOnError, hexitOnError, h⟩ := exists_of_bind h
    obtain ⟨specs, hspecs, h⟩ := exists_of_bind h
    obtain ⟨baseDir, hbaseDir, h⟩ := exists_of_bind h
    obtain ⟨fileCount, hfileCount, h⟩ := exists_of_bind h
    obtain ⟨dirSize, hdirSize, h⟩ := exists_of_bind h
    obtain ⟨replication, hreplication, h⟩ := exists_of_bind h
    obtain ⟨pollMs, hpollMs, h⟩ := exists_of_bind h
    obtain ⟨timeoutMs, htimeoutMs, h⟩ := exists_of_bind h
    obtain ⟨workers, hworkers, h⟩ := exists_of_bind h
    obtain ⟨resultFile, hresultFile, h⟩ := exists_of_bind h
    obtain rfl := Except.ok.inj h
    exact {
      names := ⟨extra, hextra, by simpa using hknown⟩
      durationMs := hduration, seed := hseed, pause := hpause, exitOnError := hexitOnError
      totalOps := htotalOps, operations := hspecs, baseDir := hbaseDir, fileCount := hfileCount
      dirSize := hdirSize, blockSize := hblockSize, writeSize := hwriteSize
      appendSize := happendSize, readSize := hreadSize, replication := hreplication
      pollMs := hpollMs, timeoutMs := htimeoutMs, workers := hworkers
      resultFile := hresultFile }

theorem IsReadAs.settings_eq {options : Options} {c : Settings Float} (h : options.IsReadAs c) :
    options.settings = .ok c := by
  obtain ⟨extra, hextra, hknown⟩ := h.names
  have hbaseDir :
      (liftM (options.getD "base_dir" (.text "/test/slive")).toText? : Outcome String) =
      .ok c.baseDir := h.baseDir
  unfold settings
  rw [hextra]
  change (if (!extra.isEmpty) = true then _ else _) = _
  rw [hknown, if_neg (by decide)]
  dsimp only
  rw [h.totalOps, h.blockSize, h.writeSize, h.appendSize, h.readSize,
    h.durationMs, h.seed, h.pause, h.exitOnError, hbaseDir, h.fileCount, h.dirSize, h.replication,
    h.pollMs, h.timeoutMs, h.workers, h.resultFile]
  change (options.operations c.totalOps >>= _) = _
  rw [h.operations]
  rfl

/-- What options are read to keeps all bounds. -/
theorem isValid_of_settings {options : Options} {c : Settings Float}
    (h : options.settings = .ok c) :
    c.IsValid := by
  have hread := isReadAs_of_settings h
  constructor
  · intro n hn
    obtain ⟨v, hv⟩ := of_readIf hread.seed n hn
    exact le_of_int hv
  · intro range hrange
    obtain ⟨v, hv⟩ := of_readIf hread.pause range hrange
    exact le_of_range hv
  · intro n hn
    obtain ⟨v, hv⟩ := of_readIf hread.totalOps n hn
    exact le_of_int hv
  · exact kinds_of_operations hread.operations
  · exact le_of_int hread.fileCount
  · exact le_of_int hread.dirSize
  · exact le_of_range hread.blockSize
  · exact le_of_range hread.writeSize
  · exact le_of_range hread.appendSize
  · exact le_of_range hread.readSize
  · exact le_of_range hread.replication
  · exact le_of_int hread.pollMs
  · exact le_of_int hread.timeoutMs
  · exact le_of_int hread.workers

end Options

end StorageLoad
