import JitFrames.Proofs.FirstMatch
import JitFrames.Proofs.StoredWords
import JitFrames.Registry

/-! The function list as words of memory: the context at the root symbol, the first node in the context, and in
each node its function's bounds and the next node. The registry reads the same list back from memory that holds
these words. -/
namespace JitFrames

/-- A function as its host lists it: the node that stands for it, and its bounds. -/
structure ListedFunction where
  node : Addr
  entryPoint : Addr
  codeEnd : Addr
  deriving DecidableEq, Repr

def ListedFunction.range (f : ListedFunction) : CodeRange := ⟨f.entryPoint, f.codeEnd⟩

def linkTo : List ListedFunction → Addr
  | [] => Addr.null
  | f :: _ => f.node

namespace ListLayout

def nodeWords (layout : ListLayout) : List ListedFunction → List (Addr × UInt64)
  | [] => []
  | f :: fs =>
    (Addr.offset f.node layout.entryPointOffset, f.entryPoint) ::
    (Addr.offset f.node layout.codeEndOffset, f.codeEnd) ::
    (Addr.offset f.node layout.nextOffset, linkTo fs) :: layout.nodeWords fs

def words (layout : ListLayout) (symbol context : Addr) (fs : List ListedFunction) : List (Addr × UInt64) :=
  (symbol, context) :: (Addr.offset context layout.functionsOffset, linkTo fs) :: layout.nodeWords fs

theorem mem_words_of_mem_nodeWords {layout : ListLayout} {symbol context : Addr} {fs : List ListedFunction}
    {w : Addr × UInt64} (h : w ∈ layout.nodeWords fs) : w ∈ layout.words symbol context fs :=
  List.mem_cons_of_mem _ (List.mem_cons_of_mem _ h)

theorem nodeWords_of_getElem? {layout : ListLayout} {fs : List ListedFunction} {k : Nat} {f : ListedFunction}
    (h : fs[k]? = some f) :
    (Addr.offset f.node layout.entryPointOffset, f.entryPoint) ∈ layout.nodeWords fs ∧
    (Addr.offset f.node layout.codeEndOffset, f.codeEnd) ∈ layout.nodeWords fs ∧
    (Addr.offset f.node layout.nextOffset, linkTo (fs.drop (k + 1))) ∈ layout.nodeWords fs := by
  induction fs generalizing k with
  | nil => simp at h
  | cons g gs ih =>
    cases k with
    | zero =>
      obtain rfl : g = f := by simpa using h
      simp [nodeWords]
    | succ k =>
      obtain ⟨he, hc, hl⟩ := ih (k := k) (by simpa using h)
      simp only [nodeWords, List.mem_cons, List.drop_succ_cons]
      exact ⟨.inr (.inr (.inr he)), .inr (.inr (.inr hc)), .inr (.inr (.inr hl))⟩

end ListLayout

theorem nonNull?_linkTo_drop {fs : List ListedFunction} (h : ∀ f ∈ fs, f.node ≠ 0) (k : Nat) :
    Addr.nonNull? (linkTo (fs.drop k)) = (fs[k]?).map (·.node) := by
  cases hk : fs[k]? with
  | none =>
    have hd : fs.drop k = [] := List.drop_eq_nil_of_le (List.getElem?_eq_none_iff.1 hk)
    rw [hd]
    rfl
  | some f =>
    obtain ⟨hlt, hf⟩ := List.getElem?_eq_some_iff.1 hk
    rw [List.drop_eq_getElem_cons hlt, hf]
    exact Addr.nonNull?_of_ne_zero (h f (List.mem_of_getElem? hk))

theorem lowBytes_of_fits {width : Nat} {ws : List (Addr × UInt64)}
    (hwidth : width = 8 ∨ width = 4 ∧ ∀ w ∈ ws, w.2.toNat < UInt32.size) {w : Addr × UInt64} (hw : w ∈ ws) :
    lowBytes width w.2 = w.2 := by
  refine lowBytes_of_lt ?_
  rcases hwidth with rfl | ⟨rfl, hs⟩
  · exact UInt64.toNat_lt_size w.2
  · exact hs w hw

/-- The target holds every word of the list that its host has written. -/
def Target.HoldsList (t : Target) (layout : ListLayout) (width : Nat) (symbol context : Addr)
    (fs : List ListedFunction) : Prop :=
  t.symbols.find layout.rootSymbol = some symbol ∧
    ∀ w ∈ layout.words symbol context fs, t.memory.Holds width w

namespace FunctionChain

/-- Following the list meets the nodes of exactly these functions, in order, and then its end. -/
structure Lists (chain : FunctionChain) (fs : List ListedFunction) : Prop where
  place_eq : ∀ k, chain.place k = .ok ((fs[k]?).map (·.node))
  node_eq : ∀ k f, fs[k]? = some f →
    (chain.node f.node).run.value = .ok ⟨f.entryPoint, f.codeEnd, (fs[k + 1]?).map (·.node)⟩

theorem Lists.of_links {chain : FunctionChain} {fs : List ListedFunction}
    (hhead : chain.head.run.value = .ok ((fs[0]?).map (·.node)))
    (hnode : ∀ k f, fs[k]? = some f →
      (chain.node f.node).run.value = .ok ⟨f.entryPoint, f.codeEnd, (fs[k + 1]?).map (·.node)⟩) :
    chain.Lists fs where
  node_eq := hnode
  place_eq k := by
    induction k with
    | zero => exact hhead
    | succ k ih =>
      cases hk : fs[k]? with
      | none =>
        have hk' : fs[k + 1]? = none := List.getElem?_eq_none (by
          have := List.getElem?_eq_none_iff.1 hk
          omega)
        simp [place, ih, hk, hk']
      | some f =>
        rw [hk] at ih
        exact place_succ ih (hnode k f hk)

variable {chain : FunctionChain} {fs : List ListedFunction} {pc : Addr}

theorem Lists.passesAt {k : Nat} {f : ListedFunction} (h : chain.Lists fs) (hk : fs[k]? = some f)
    (hf : f.range.contains pc = false) : chain.PassesAt pc k := by
  refine ⟨f.node, _, by rw [h.place_eq, hk]; rfl, h.node_eq k f hk, ?_⟩
  rw [CodeRange.contains, decide_eq_false_iff_not] at hf
  exact hf

theorem Lists.matchesAt {k : Nat} {f : ListedFunction} (h : chain.Lists fs) (hk : fs[k]? = some f)
    (hf : f.range.contains pc = true) : chain.MatchesAt pc k f.range := by
  refine ⟨f.node, _, by rw [h.place_eq, hk]; rfl, h.node_eq k f hk, ?_, rfl⟩
  simpa [ListedFunction.range] using hf

theorem Lists.value_scan (h : chain.Lists fs) (pc : Addr) :
    (chain.scan pc).run.value = .ok ((fs.map (·.range)).find? (·.contains pc)) := by
  cases hf : (fs.map (·.range)).find? (·.contains pc) with
  | none =>
    refine value_scan_eq_end_iff.2 ⟨fs.length, fun j hj => ?_, by rw [h.place_eq]; simp⟩
    have hj' : fs[j]? = some fs[j] := List.getElem?_eq_getElem hj
    refine h.passesAt hj' (Bool.eq_false_iff.2 (List.find?_eq_none.1 hf _ ?_))
    exact List.mem_map_of_mem (List.getElem_mem hj)
  | some range =>
    obtain ⟨hc, k, hk, hr, hbefore⟩ := List.find?_eq_some_iff_getElem.1 hf
    rw [List.length_map] at hk
    have hk' : fs[k]? = some fs[k] := List.getElem?_eq_getElem hk
    rw [List.getElem_map] at hr
    subst hr
    refine value_scan_eq_match_iff.2 ⟨k, fun j hj => ?_, h.matchesAt hk' hc⟩
    have hj' : fs[j]? = some fs[j] := List.getElem?_eq_getElem (by omega)
    refine h.passesAt hj' ?_
    simpa using hbefore j hj

end FunctionChain

namespace Target.HoldsList

variable {t : Target} {layout : ListLayout} {width : Nat} {symbol context : Addr} {fs : List ListedFunction}

theorem word_eq (h : t.HoldsList layout width symbol context fs)
    (hwidth : width = 8 ∨ width = 4 ∧ ∀ w ∈ layout.words symbol context fs, w.2.toNat < UInt32.size)
    {addr : Addr} {word : UInt64} (hw : (addr, word) ∈ layout.words symbol context fs) :
    t.memory.word addr width = .ok word := by
  have hh : t.memory.word addr width = .ok (lowBytes width word) := h.2 (addr, word) hw
  rw [hh]
  exact congrArg _ (lowBytes_of_fits hwidth hw)

theorem lists (h : t.HoldsList layout width symbol context fs) (hcontext : context ≠ 0)
    (hnodes : ∀ f ∈ fs, f.node ≠ 0)
    (hwidth : width = 8 ∨ width = 4 ∧ ∀ w ∈ layout.words symbol context fs, w.2.toNat < UInt32.size) :
    (Registry.mk t layout width).chain.Lists fs := by
  refine .of_links ?_ fun k f hk => ?_
  · have hs : t.memory.word symbol width = .ok context := h.word_eq hwidth (by simp [ListLayout.words])
    have hh : t.memory.word (Addr.offset context layout.functionsOffset) width = .ok (linkTo fs) :=
      h.word_eq hwidth (by simp [ListLayout.words])
    have hc : (Registry.mk t layout width).context.run.value = .ok (some context) := by
      simp only [Registry.value_context, h.1, hs, Addr.nonNull?_of_ne_zero hcontext]
    change (Registry.mk t layout width).head.run.value = _
    rw [Registry.value_head, hc]
    change (t.memory.word (Addr.offset context layout.functionsOffset) width >>= _) = _
    rw [hh]
    exact congrArg Except.ok (nonNull?_linkTo_drop hnodes 0)
  · obtain ⟨he, hc, hl⟩ := @ListLayout.nodeWords_of_getElem? layout fs k f hk
    have he' := h.word_eq hwidth (ListLayout.mem_words_of_mem_nodeWords he)
    have hc' := h.word_eq hwidth (ListLayout.mem_words_of_mem_nodeWords hc)
    have hl' := h.word_eq hwidth (ListLayout.mem_words_of_mem_nodeWords hl)
    change ((Registry.mk t layout width).node f.node).run.value = _
    rw [Registry.value_node, ← nonNull?_linkTo_drop hnodes (k + 1)]
    simp only [he', hc', hl']
    rfl

end Target.HoldsList

namespace Registry

/-- From every target that holds the words of a list the registry reads it back, and searching it is searching
the ranges in order. A process holds words stored apart from each other. -/
theorem lists_of_words (layout : ListLayout) (width : Nat) (symbol context : Addr) (fs : List ListedFunction)
    (hcontext : context ≠ 0) (hnodes : ∀ f ∈ fs, f.node ≠ 0)
    (hwidth : width = 8 ∨ width = 4 ∧ ∀ w ∈ layout.words symbol context fs, w.2.toNat < UInt32.size) :
    (∀ t : Target, t.HoldsList layout width symbol context fs →
      let chain := (Registry.mk t layout width).chain
      chain.Lists fs ∧ ∀ pc key s, ((chain.resolve pc key).on s).value =
        match (fs.map (·.range)).find? (·.contains pc) with
        | some range => (.ok (some range), { s with cache := s.cache.insert key range })
        | none => (.ok none, s)) ∧
    ∀ (p : ProcessImage) (order : List (Addr × UInt64)), p.findGlobal layout.rootSymbol = some symbol →
      order.Perm (layout.words symbol context fs) → (∀ w ∈ order, p.MappedAt width w.1) →
      (order.Pairwise fun v w => Apart width v.1 w.1) →
      (p.storeAll width order).target.HoldsList layout width symbol context fs := by
  refine ⟨fun t h => ⟨h.lists hcontext hnodes hwidth, fun pc key s => ?_⟩,
    fun p order hsymbol horder hmapped happart => ⟨?_, fun w hw => ?_⟩⟩
  · rw [FunctionChain.value_resolve, (h.lists hcontext hnodes hwidth).value_scan]
    cases (fs.map (·.range)).find? (·.contains pc) <;> rfl
  · exact (p.findGlobal_storeAll width order _).trans hsymbol
  · have hword : isWordWidth width = true := isWordWidth_iff.2 (hwidth.symm.imp And.left id)
    exact ProcessImage.holds_storeAll hword hmapped happart w (horder.mem_iff.2 hw)

/-- Words of four bytes, nodes whose bounds lie below them, and two functions that overlap. -/
theorem lists_of_words_below_node :
    let layout : ListLayout := { rootSymbol := "my_jit", functionsOffset := 0x10, entryPointOffset := -8,
                                 codeEndOffset := -4, nextOffset := 0 }
    let fs : List ListedFunction := [⟨0x9010, 0x500000, 0x500100⟩, ⟨0x9040, 0x500080, 0x500200⟩]
    let p : ProcessImage := ({} : ProcessImage).declare { name := "my_jit", addr := 0x8000, size := 0x2000 }
    let chain := (Registry.mk (p.storeAll 4 (layout.words 0x8000 0x8800 fs).reverse).target layout 4).chain
    chain.Lists fs ∧ ((chain.resolve 0x500090 7).on {}).value.1 = .ok (some ⟨0x500000, 0x500100⟩) := by
  intro layout fs p chain
  -- The instances are named because a word also has one that runs through all pairs of words.
  have hsmall : ∀ w ∈ layout.words 0x8000 0x8800 fs, w.2.toNat < UInt32.size :=
    @of_decide_eq_true _ (List.decidableBAll _ _) (by decide +kernel)
  have hmapped : ∀ w ∈ (layout.words 0x8000 0x8800 fs).reverse, p.MappedAt 4 w.1 :=
    @of_decide_eq_true _ (List.decidableBAll _ _) (by decide +kernel)
  have h := lists_of_words layout 4 0x8000 0x8800 fs (by decide) (by decide) (.inr ⟨rfl, hsmall⟩)
  have hstored := h.2 p (layout.words 0x8000 0x8800 fs).reverse (by decide +kernel) (List.reverse_perm _)
    hmapped (by decide +kernel)
  have hread := h.1 _ hstored
  refine ⟨hread.1, ?_⟩
  rw [hread.2]
  rfl

end Registry
end JitFrames
