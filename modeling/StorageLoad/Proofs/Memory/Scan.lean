import Mathlib.Data.List.TakeWhile
import StorageLoad.Proofs.Memory.Entries

/-!
The scan of what lies below a path as a filter of all stored paths.  Paths that begin alike stand
together and behind what they begin with, so the scan that starts there and ends at the first path
that begins otherwise misses none (`children_exact`).
-/

namespace StorageLoad

namespace Path

theorem exists_eq_stripSlashes_append (p : Path) :
    ∃ n, p = stripSlashes p ++ List.replicate n '/' := by
  have hslashes : ∀ c ∈ p.reverse.takeWhile (· = '/'), c = '/' := by
    intro c hc
    simpa using List.mem_takeWhile_imp hc
  refine ⟨(p.reverse.takeWhile (· = '/')).length, ?_⟩
  calc
    p = (p.reverse.takeWhile (· = '/') ++ p.reverse.dropWhile (· = '/')).reverse := by
      rw [List.takeWhile_append_dropWhile, List.reverse_reverse]
    _ = stripSlashes p ++ (p.reverse.takeWhile (· = '/')).reverse := List.reverse_append
    _ = stripSlashes p ++ List.replicate (p.reverse.takeWhile (· = '/')).length '/' := by
      rw [List.eq_replicate_of_mem hslashes, List.reverse_replicate, List.length_replicate]

theorem getLast?_stripSlashes_ne (p : Path) : (stripSlashes p).getLast? ≠ some '/' := by
  intro hlast
  rw [stripSlashes, List.getLast?_reverse] at hlast
  have hstop := List.head?_dropWhile_not (fun c : Char => decide (c = '/')) p.reverse
  rw [hlast] at hstop
  simp at hstop

end Path

namespace Memory

open StorageLoad.Path

/-- Whatever paths are stored, if only they ascend: of a path without the slashes at its end, the
scan finds the stored paths that go on from it behind a slash, each once and ascending. -/
theorem children_exact {m : Memory} (h : m.paths.Pairwise (· < ·)) (p : Path) :
    (∃ n, p = stripSlashes p ++ List.replicate n '/') ∧ (stripSlashes p).getLast? ≠ some '/' ∧
      m.children p = m.paths.filter
        (fun q => stripSlashes p ++ ['/'] <+: q ∧ q ≠ stripSlashes p ++ ['/']) ∧
      (m.children p).Pairwise (· < ·) ∧ (m.children p).Nodup := by
  have hsorted : m.IsSorted := List.pairwise_map.mp h
  refine ⟨exists_eq_stripSlashes_append p, getLast?_stripSlashes_ne p, ?_,
    children_pairwise hsorted p, nodup_children hsorted p⟩
  apply Table.eq_of_ascending (children_pairwise hsorted p) (h.filter _)
  intro q
  rw [mem_children_iff hsorted, List.mem_filter, decide_eq_true_eq, below, mem_paths_iff,
    contains_iff, ne_comm]

/-- Paths that begin with `/a`, with characters behind it that stand before, at and after the
slash. -/
def crowded : Memory :=
  { lag := 0
    entries :=
      ⟨["/", "/a", "/a-b", "/a-b/c", "/a/", "/a/.x", "/a/b", "/a/b/c", "/a0", "/a0/b",
        "/é/a/b"].map
      fun s => (ofString s, Entry.directory)⟩ }

theorem children_exact_crowded : crowded.paths.Pairwise (· < ·) ∧
    crowded.children (ofString "/a//") = ["/a/.x", "/a/b", "/a/b/c"].map ofString ∧
    crowded.children (ofString "//") = crowded.paths.drop 1 := by
  have hsorted : crowded.paths.Pairwise (· < ·) := by decide
  obtain ⟨-, -, hbelow, -, -⟩ := children_exact hsorted (ofString "/a//")
  obtain ⟨-, -, htop, -, -⟩ := children_exact hsorted (ofString "//")
  refine ⟨hsorted, ?_, ?_⟩
  · rw [hbelow]
    decide
  · rw [htop]
    decide

end Memory

end StorageLoad
