import TrashOS.Page.BootFrames
import TrashOS.Ram.Refine

/-!
# From `init` to the running kernel

`init` loads `cr3`, enables paging and passes on where the directory, the lookup table and
the heap are.  From then on `page.c` works through the tables that `init_map_kernel` has
built.

* `Finished.selfMapped` — these tables map themselves: every pointer `init` passes on, and
  every pointer in the lookup table, is mapped to the frame it stands for.
* `Finished.reflects` — so the state of `page.c` that `handedTables` reads off memory is what
  its functions work on.
* `kernel_boots` — `init_map_kernel`, `page_init_cleanup`, and every run of the kernel after
  that, put together.
-/

namespace TrashOS

/-! ## What `init` passes on -/

/-- `cr3`, `page_dir` and `page_table_lookup` at the end of `init`. -/
def initHandover (sym : LinkSymbols) (s : InitState) : Ram where
  mem := s.mem
  cr3 := sym.initPageStruct
  pageDir := sym.bssEnd
  pageTableLookup := Word32.add sym.bssEnd pageSize

/-! ## What `init_map_kernel` leaves -/

section Handover

variable {sym : LinkSymbols} {s : InitState} {dirs : List ℕ} {k idx page u fuel : ℕ}

namespace Finished

variable (finished : Finished sym dirs s) (boots : sym.Boots)

include finished boots

theorem lookupWord (found : dirs[k]? = some idx) :
    (initHandover sym s).lookupWord (sym.pageTableLookup 0) idx =
      sym.bssEnd + 3 * pageSize + k * pageSize :=
  finished.lookup_of_covered boots.toLinked boots.covered found

/-- **The regions with a table.** -/
theorem hasTable_iff :
    (initHandover sym s).HasTable (sym.pageTableLookup 0) idx ↔ idx ∈ dirs := by
  constructor
  · rintro ⟨small, nonzero⟩
    by_contra outside
    exact nonzero (finished.noLookup idx small outside)
  · intro member
    obtain ⟨k, found⟩ := List.mem_iff_getElem?.mp member
    refine ⟨finished.below idx member, ?_⟩
    rw [finished.lookupWord boots found]
    unfold pageSize
    omega

theorem tableFrame (found : dirs[k]? = some idx) :
    (initHandover sym s).tableFrame idx = sym.tableAt k := by
  have entry := finished.entry boots.toLinked found
  have dir : (initHandover sym s).dirWord idx = sym.tableAt k ||| tableFlags :=
    finished.dir k idx found
  rw [Ram.tableFrame, dir, entry.frame_eq]

omit boots in
/-- **The frame of a page** is what the segments say. -/
theorem frameOf (word : page < pageEntries * pageEntries) :
    (initHandover sym s).frameOf page =
      (Segment.translate sym.segments (page * pageSize)).map Prod.fst := by
  have number : page * pageSize / pageSize = page := Nat.mul_div_cancel _ (by decide)
  have rest : page * pageSize % pageSize = 0 := Nat.mul_mod_left _ _
  have small : page * pageSize < 2 ^ 32 := by
    unfold pageEntries at word
    unfold pageSize
    omega
  have walks : walk (initHandover sym s).mem (initHandover sym s).cr3 (page * pageSize) = _ :=
    finished.walks _ small
  rw [← walks, Ram.walk_eq, number, rest, Option.map_map]
  rfl

omit boots in
/-- The frame of the page of an address in one of the segments. -/
theorem frameOf_eq {v : ℕ} {x : ℕ × ℕ} (isPage : Ram.IsPage v)
    (translated : Segment.translate sym.segments v = some x) :
    (initHandover sym s).frameOf (v / pageSize) = some x.1 := by
  have start : v / pageSize * pageSize = v :=
    Nat.div_mul_cancel (Nat.dvd_of_mod_eq_zero isPage.aligned)
  rw [finished.frameOf isPage.page_lt, start, translated]
  rfl

/-- **The tables map themselves.** -/
theorem selfMapped : Ram.SelfMapped (sym.pageTableLookup 0) (initHandover sym s) := by
  have linked := boots.toLinked
  have behind := linked.tablesBehind
  have bound := linked.bssEnd_bound
  have bss := boots.bss
  have struct := boots.struct
  have above := behind.behind
  have lookupPointer : (initHandover sym s).pageTableLookup = sym.bssEnd + pageSize :=
    Word32.add_eq (by unfold pageSize at *; omega)
  have position : ∀ {i}, (initHandover sym s).HasTable (sym.pageTableLookup 0) i →
      ∃ k, dirs[k]? = some i := fun has =>
    List.mem_iff_getElem?.mp ((finished.hasTable_iff boots).mp has)
  have pos : 0 < pageSize := by decide
  have pageDir : Ram.IsPage sym.bssEnd := ⟨bss, linked.bssEnd_lt⟩
  have lookup : Ram.IsPage (sym.bssEnd + pageSize) := by
    constructor <;> unfold pageSize at * <;> omega
  have behindStruct : ∀ k, sym.pageTableLookup 0 < sym.tableAt k := fun k => by
    unfold LinkSymbols.tableAt LinkSymbols.pageTableLookup pageSize at *
    omega
  refine
    { pageDir := pageDir
      pageTableLookup := lookupPointer ▸ lookup
      cr3 := struct
      lookupFrame := by unfold LinkSymbols.pageTableLookup pageSize at *; omega
      dirMapped := ?_
      lookupMapped := ?_
      present := fun idx small => ?_
      table := fun idx has => ?_
      tableMapped := fun idx has => ?_
      null := ?_
      dirLookup := ?_
      tableDir := fun idx has => ?_
      tableLookup := fun idx has => ?_
      tables := fun i j hasI hasJ same => ?_ }
  · exact finished.frameOf_eq pageDir (linked.translate_start (i := 3) rfl pos)
  · rw [lookupPointer]
    exact finished.frameOf_eq lookup (linked.translate_start (i := 4) rfl pos)
  · by_cases member : idx ∈ dirs
    · obtain ⟨k, found⟩ := List.mem_iff_getElem?.mp member
      exact iff_of_true (finished.present linked found)
        ((finished.hasTable_iff boots).mpr member).2
    · refine iff_of_false (fun present => member ?_) (not_not.mpr (finished.noLookup idx small member))
      exact finished.mem_of_present small present
  · obtain ⟨k, found⟩ := position has
    have below := finished.inside boots.covered found
    rw [finished.lookupWord boots found]
    constructor <;> unfold pageSize at * <;> omega
  · obtain ⟨k, found⟩ := position has
    have below := finished.inside boots.covered found
    have isPage : Ram.IsPage (sym.bssEnd + 3 * pageSize + k * pageSize) := by
      constructor <;> unfold pageSize at * <;> omega
    rw [finished.lookupWord boots found, finished.tableFrame boots found]
    exact finished.frameOf_eq isPage (linked.translate_table below)
  · have none : (initHandover sym s).frameOf 0 = none := by
      rw [finished.frameOf (by decide), Option.map_eq_none_iff, Nat.zero_mul]
      refine Option.eq_none_iff_forall_ne_some.mpr fun x translated => ?_
      have low := boots.low
      have cases := boots.frame_of_translate translated
      unfold vgaPaddrBuffer kernelStartVma pageSize at *
      omega
    exact Option.map_eq_none_iff.mp none
  · change sym.initPageStruct ≠ sym.initPageStruct + pageSize + 4 * 0
    omega
  · obtain ⟨k, found⟩ := position has
    have behind := behindStruct k
    rw [finished.tableFrame boots found]
    change _ ≠ sym.initPageStruct
    unfold LinkSymbols.pageTableLookup at behind
    omega
  · obtain ⟨k, found⟩ := position has
    rw [finished.tableFrame boots found]
    exact (behindStruct k).ne'
  · obtain ⟨k, foundI⟩ := position hasI
    obtain ⟨l, foundJ⟩ := position hasJ
    rw [finished.tableFrame boots foundI, finished.tableFrame boots foundJ] at same
    have equal : k = l := by
      unfold LinkSymbols.tableAt pageSize at same
      omega
    rw [equal, foundJ] at foundI
    exact (Option.some.inj foundI).symm

/-- **Memory and the tables of `page.c` agree.** -/
theorem reflects :
    Ram.Reflects (sym.pageTableLookup 0) (initHandover sym s) (handedTables sym s) := by
  have linked := boots.toLinked
  refine ⟨finished.selfMapped boots, fun idx small => if_pos small, fun idx small none => ?_,
    fun idx has => ?_⟩
  · exact if_neg fun both => both.2 none
  · obtain ⟨k, found⟩ := List.mem_iff_getElem?.mp ((finished.hasTable_iff boots).mp has)
    refine ⟨_, finished.table_eq linked boots.covered found, fun j small => ?_⟩
    rw [tableWords, if_pos small, Ram.tableWord, finished.tableFrame boots found]
    exact (finished.table k idx found j small).symm

end Finished

/-- **The kernel boots.** `init_map_kernel` returns, and what it leaves in memory is what `page.c`
takes it for.  From there `page_init_cleanup` returns, gives every region of the kernel a page
table, and in every run after that whose frees leave from an end inside a page, no frame is owned
twice.  The conditions are those of the parts: `Boots` and `Fits` of the layout, and that the
pages which become tables held no present entry.  The three parts meet in `handedTables`, which is
what the processor finds when it walks the directory that `init_map_kernel` has built. -/
theorem kernel_boots {contents : ℕ → ℕ → ℕ} (boots : sym.Boots) (loaded : s.Loaded sym)
    (enough : pageEntries * pageEntries < fuel) (fits : sym.region.Fits)
    (clean : ∀ i j, entryPresent (contents i j) = false) :
    ∃ t, initMapKernel sym fuel s = .ok ((), t) ∧
      Ram.Reflects (sym.pageTableLookup 0) (initHandover sym t) (handedTables sym t) ∧
      ∀ k : Sys PageTables, k.pages = handedTables sym t → k.log = [] →
        ∃ k' made, (∀ depth, pageInitCleanup (depth + 2) contents (initRegion sym t) k =
            .ok ((), k')) ∧ AllTables k'.pages ∧ (∃ H nodes, KernelClient ⟨k', made⟩ H nodes) ∧
          ∀ w, Relation.ReflTransGen (KernelStep SafeFree) ⟨k', made⟩ w → NextKept w.sys.log →
            ∃ nodes, OwnedOnce w.sys nodes := by
  obtain ⟨t, dirs, run, finished⟩ := loaded.finished boots.toLinked enough
  refine ⟨t, run, finished.reflects boots, fun k pages log => ?_⟩
  rw [finished.initRegion_eq]
  obtain ⟨k', made, H, nodes, runs, all, owned⟩ :=
    ownedClient_of_boot (finished.bootTables boots.toLinked boots.covered pages) fits
      (finished.bootFrames boots pages log clean)
  refine ⟨k', made, runs, all, ⟨H, nodes, owned.client⟩, fun w run kept => ?_⟩
  obtain ⟨M, nodes', inv⟩ := ownedClient_of_run owned run
  exact ⟨nodes', inv.once kept⟩

end Handover

/-- A kernel of 64 KiB, over memory that is zero. -/
theorem kernel_boots_small :
    ∃ t, initMapKernel smallLink (2 ^ 21) freshInit = .ok ((), t) ∧
      Ram.Reflects (smallLink.pageTableLookup 0) (initHandover smallLink t)
        (handedTables smallLink t) ∧
      ∀ k : Sys PageTables, k.pages = handedTables smallLink t → k.log = [] →
        ∃ k' made, (∀ depth, pageInitCleanup (depth + 2) (fun _ _ => 0) (initRegion smallLink t)
            k = .ok ((), k')) ∧ AllTables k'.pages ∧ (∃ H nodes, KernelClient ⟨k', made⟩ H nodes) ∧
          ∀ w, Relation.ReflTransGen (KernelStep SafeFree) ⟨k', made⟩ w → NextKept w.sys.log →
            ∃ nodes, OwnedOnce w.sys nodes :=
  kernel_boots smallLink_boots (freshInit_loaded smallLink) (by decide) (by decide +kernel)
    fun _ _ => by decide

end TrashOS
