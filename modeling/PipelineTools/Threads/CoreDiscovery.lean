import PipelineTools.Threads.CPUManager
import PipelineTools.Utils.NumericRanges
import Mathlib.Data.List.Nodup

/-!
# Discovery of the cores

The constructor of `CPUManager` reads the kernel's lists of online and of isolated cores. Each list
is one line in the format of `printItems`. One string and one stream serve for both files; a file
that cannot be opened leaves the stream failed, and `std::getline` does not touch the string of a
failed stream. `parseCpus_isolated` and `parseCpus_missing` say what the pools are then.
-/

set_option autoImplicit false

namespace PipelineTools.Threads

open PipelineTools.Library PipelineTools.Utils

/-- Why `parse_cpus` does not return. -/
inductive ParseCpusStop where
  | ranges (stop : RangesStop)
  /-- `erase` of the end iterator, which is undefined. -/
  | eraseEnd
  deriving DecidableEq

/-- `open`, `std::getline` into `line` and `close`; a file that does not exist cannot be opened. -/
def readLine (file : Option (List Char)) (line : List Char) : List Char :=
  match file with
  | none => line
  | some content =>
    match getline '\n' content with
    | none => []
    | some (first, _) => first

/-- `utils::parse_numeric_ranges(unparsed_cores)`. -/
def parseCores (line : List Char) : Except ParseCpusStop (List Int) :=
  match parseNumericRanges line with
  | .ok cores => .ok cores
  | .error stop => .error (.ranges stop)

/-- The loop that erases what `std::ranges::find` finds of each isolated core. -/
def eraseIsolated : List Int → List Int → Except ParseCpusStop (List Int)
  | [], pinned => .ok pinned
  | cpu :: isol, pinned =>
    if cpu ∈ pinned then eraseIsolated isol (pinned.erase cpu) else .error .eraseEnd

/-- `CPUManager::parse_cpus` with the contents of the two files. -/
def CPUManager.parseCpus (online isolated : Option (List Char)) (m : CPUManager) :
    Except ParseCpusStop CPUManager := do
  let unparsedCores := readLine online []
  let pinned ← parseCores unparsedCores
  let onlineCores ← parseCores unparsedCores
  let unparsedCores := readLine isolated unparsedCores
  let isol ← parseCores unparsedCores
  let pinned ← eraseIsolated isol pinned
  .ok { m with pinnedCorePool := pinned, onlineCores := onlineCores, isolCorePool := isol }

/-- The manager before its constructor reads the files. -/
def CPUManager.empty : CPUManager := { pinnedCorePool := [], isolCorePool := [], onlineCores := [] }

/-- A list of cores as the kernel keeps it: numbers and ranges in increasing order. -/
structure CpuList where
  items : List RangeItem
  increasing : Increasing items

namespace CpuList

/-- The file the kernel shows the list as. -/
def file (l : CpuList) : List Char := printItems l.items ++ ['\n']

def cores (l : CpuList) : List Int := l.items.flatMap RangeItem.expand

theorem cores_nodup (l : CpuList) : l.cores.Nodup :=
  (expand_increasing l.increasing).imp fun hlt => by omega

/-- The line of the file is the printed list. -/
theorem readLine_file (l : CpuList) (line : List Char) :
    readLine (some l.file) line = printItems l.items := by
  have hne : l.file ≠ [] := by simp [file]
  have hnewline : ∀ c ∈ printItems l.items, decide (c ≠ '\n') = true := by
    intro c hc
    rw [decide_eq_true_eq]
    rintro rfl
    exact not_mem_printItems l.items (by decide) (by decide) (by decide) hc
  rw [readLine, getline, if_neg hne]
  simp only
  rw [file, List.takeWhile_append_of_pos hnewline]
  simp

theorem parseCores_items (l : CpuList) : parseCores (printItems l.items) = .ok l.cores := by
  rw [parseCores, parseNumericRanges_items]
  rfl

end CpuList

/-! ## Erasing the isolated cores -/

/-- Cores that are all in the pool are taken out of it. -/
theorem eraseIsolated_of_mem {isol pinned : List Int} (hisol : isol.Nodup) (hpinned : pinned.Nodup)
    (hmem : ∀ cpu ∈ isol, cpu ∈ pinned) :
    eraseIsolated isol pinned = .ok (pinned.filter (· ∉ isol)) := by
  induction isol generalizing pinned with
  | nil =>
    rw [eraseIsolated]
    simp
  | cons cpu isol ih =>
    obtain ⟨hcpu, hrest⟩ := List.forall_mem_cons.1 hmem
    obtain ⟨hnotin, hisol⟩ := List.nodup_cons.1 hisol
    rw [eraseIsolated, if_pos hcpu, ih hisol (hpinned.erase cpu)]
    · rw [hpinned.erase_eq_filter, List.filter_filter]
      congr 1
      apply List.filter_congr
      intro c _
      rw [Bool.eq_iff_iff]
      simp [and_comm]
    · intro c hc
      refine (List.mem_erase_of_ne ?_).2 (hrest c hc)
      rintro rfl
      exact hnotin hc

/-- If no `erase` goes wrong, all the isolated cores were in the pool. -/
theorem mem_of_eraseIsolated {isol pinned left : List Int}
    (h : eraseIsolated isol pinned = .ok left) : ∀ cpu ∈ isol, cpu ∈ pinned := by
  induction isol generalizing pinned with
  | nil =>
    intro cpu hcpu
    cases hcpu
  | cons cpu isol ih =>
    rw [eraseIsolated] at h
    by_cases hcpu : cpu ∈ pinned
    · rw [if_pos hcpu] at h
      rw [List.forall_mem_cons]
      exact ⟨hcpu, fun c hc => List.mem_of_mem_erase (ih h c hc)⟩
    · rw [if_neg hcpu] at h
      cases h

/-! ## The pools -/

/-- The isolated cores of a machine; it has none when there is no file. -/
def isolatedCores (isolated : Option CpuList) : List Int := (isolated.map CpuList.cores).getD []

/-- The run of `parse_cpus` on a machine. -/
def discover (online : CpuList) (isolated : Option CpuList) : Except ParseCpusStop CPUManager :=
  CPUManager.empty.parseCpus (some online.file) (isolated.map CpuList.file)

/-- The loop runs over the cores of the second line that is parsed. -/
theorem parseCpus_of_lines {onlineFile isolatedFile : Option (List Char)} {online second : CpuList}
    (honline : readLine onlineFile [] = printItems online.items)
    (hsecond : readLine isolatedFile (printItems online.items) = printItems second.items)
    (m : CPUManager) :
    m.parseCpus onlineFile isolatedFile =
      (eraseIsolated second.cores online.cores).bind fun pinned =>
        .ok ⟨pinned, second.cores, online.cores, m.mutexHeld⟩ := by
  simp only [CPUManager.parseCpus, honline, hsecond, CpuList.parseCores_items]
  rfl

theorem discover_some (online isolated : CpuList) :
    discover online (some isolated) =
      (eraseIsolated isolated.cores online.cores).bind fun pinned =>
        .ok ⟨pinned, isolated.cores, online.cores, false⟩ :=
  parseCpus_of_lines (online.readLine_file []) (isolated.readLine_file _) _

/-- Without a file of isolated cores, the line of the online cores is parsed again. -/
theorem discover_none (online : CpuList) :
    discover online none =
      (eraseIsolated online.cores online.cores).bind fun pinned =>
        .ok ⟨pinned, online.cores, online.cores, false⟩ :=
  parseCpus_of_lines (online.readLine_file []) rfl _

/-- What the pools must be. -/
structure Discovered (online : CpuList) (isolated : Option CpuList) (m : CPUManager) : Prop where
  pinned : m.pinnedCorePool = online.cores.filter (· ∉ isolatedCores isolated)
  sublist : m.isolCorePool.Sublist (isolatedCores isolated)
  online : ∀ cpu ∈ m.isolCorePool, cpu ∈ online.cores
  disjoint : m.pinnedCorePool.Disjoint m.isolCorePool
  pinnedNodup : m.pinnedCorePool.Nodup
  isolNodup : m.isolCorePool.Nodup

/-- The file of isolated cores is there and names online cores only, or neither file has a core. -/
def OnlyOnline (online : CpuList) : Option CpuList → Prop
  | some isolated => ∀ cpu ∈ isolated.cores, cpu ∈ online.cores
  | none => online.cores = []

/-- The pools are what they must be, and `erase` never gets the end iterator, exactly when the
isolated cores are all online; without their file, only when no core is online. -/
theorem discovered_iff (online : CpuList) (isolated : Option CpuList) :
    (∃ m, discover online isolated = .ok m ∧ Discovered online isolated m) ↔
      OnlyOnline online isolated := by
  cases isolated with
  | some isolated =>
    rw [discover_some]
    constructor
    · rintro ⟨m, hm, -⟩
      cases herase : eraseIsolated isolated.cores online.cores with
      | ok pinned => exact mem_of_eraseIsolated herase
      | error stop =>
        rw [herase] at hm
        cases hm
    · intro hmem
      rw [eraseIsolated_of_mem isolated.cores_nodup online.cores_nodup hmem]
      refine ⟨_, rfl, rfl, List.Sublist.refl _, hmem, ?_, ?_, isolated.cores_nodup⟩
      · intro cpu hpinned hisol
        exact absurd hisol (of_decide_eq_true (List.mem_filter.1 hpinned).2)
      · exact online.cores_nodup.filter _
  | none =>
    rw [discover_none,
      eraseIsolated_of_mem online.cores_nodup online.cores_nodup fun _ hcpu => hcpu]
    constructor
    · rintro ⟨m, hm, hdiscovered⟩
      obtain rfl := Except.ok.inj hm
      exact List.sublist_nil.1 hdiscovered.sublist
    · intro hnil
      have hnil' : online.cores = [] := hnil
      rw [hnil']
      refine ⟨_, rfl, ?_, List.Sublist.refl _, ?_, ?_, List.nodup_nil, List.nodup_nil⟩
      · rw [hnil']
        rfl
      · intro cpu hcpu
        cases hcpu
      · exact List.disjoint_nil_left _

/-- Cores 0 to 3. -/
def fourCores : CpuList := ⟨[.range 0 3 (by decide) (by decide)], List.pairwise_singleton _ _⟩

/-- Core 8. -/
def coreEight : CpuList := ⟨[.number 8 (by decide)], List.pairwise_singleton _ _⟩

/-- The isolated core is not online. -/
theorem not_discovered_coreEight :
    ¬∃ m, discover fourCores (some coreEight) = .ok m ∧
      Discovered fourCores (some coreEight) m := by
  have herase : discover fourCores (some coreEight) = .error .eraseEnd := rfl
  rintro ⟨m, hm, -⟩
  rw [herase] at hm
  cases hm

end PipelineTools.Threads
