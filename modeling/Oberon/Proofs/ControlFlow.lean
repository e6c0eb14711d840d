import Oberon.Proofs.Activations
import Oberon.Proofs.Provenance
import Oberon.Proofs.Reachability

/-!
# The shape of control flow

Nothing leads to the first block of a function and to the blocks after RETURN, BREAK and CONTINUE,
and these lead to all other blocks. Cells are reserved in the first block only. So while a program
runs, each call reserves its cells once and never comes to code behind an early exit; and where
there is no early exit, the first block leads to all blocks.
-/

namespace Oberon

open Code Machine Relation Emit Emission Outline

/-! ## Cells -/

/-- Cells are reserved in the first block only: no other block has an `alloca`. -/
def CellsFirst (blocks : Array Block) : Prop :=
  ∀ (l : Nat) (b : Block), blocks[l]? = some b → l ≠ 0 → ∀ i ∈ b.instrs, i.isAlloca = false

/-- `CellsFirst` stays true if a block other than the first gets no cells. -/
theorem CellsFirst.modify {blocks : Array Block} (h : CellsFirst blocks) {label : Nat}
    {f : Block → Block}
    (hf : label ≠ 0 → ∀ b i, i ∈ (f b).instrs → i ∈ b.instrs ∨ i.isAlloca = false) :
    CellsFirst (blocks.modify label f) := by
  intro l b hb hl i hi
  rw [Array.getElem?_modify] at hb
  split at hb
  · rename_i hlabel
    obtain ⟨c, hc, rfl⟩ := Option.map_eq_some_iff.mp hb
    rcases hf (hlabel ▸ hl) c i hi with hi | hi
    · exact h l c hc hl i hi
    · exact hi
  · exact h l b hb hl i hi

theorem Code.Instr.isAlloca_of_output {i : Instr} (h : i.output = none) : i.isAlloca = false := by
  cases i with
  | alloca out ty => cases h
  | _ => rfl

namespace Emission

variable {s t : Emission}

theorem cellsFirst_pushed (h : CellsFirst s.build.blocks) {i : Instr} (hi : i.isAlloca = false) :
    CellsFirst (s.pushed i).build.blocks := by
  rw [pushed, build_edited]
  refine h.modify fun _ b j hj => ?_
  rcases List.mem_append.mp hj with hj | hj
  · exact .inl hj
  · rw [List.mem_singleton.mp hj]
    exact .inr hi

/-- Whatever is emitted by `Changes`, cells stand in the first block. -/
theorem Changes.cellsFirst (h : s.Changes t) (hs : CellsFirst s.build.blocks) :
    CellsFirst t.build.blocks := by
  cases h with
  | extend h =>
    cases h with
    | push h => exact cellsFirst_pushed hs (Instr.isAlloca_of_output h)
    | define h hcell => exact cellsFirst_pushed (s := s.drawn) hs hcell
    | string text => exact hs
  -- the only edit that adds a cell adds it to the first block
  | cell ty =>
    rw [reserved, build_edited]
    exact hs.modify fun hne => absurd rfl hne
  | terminate term =>
    rw [terminated, build_edited]
    exact hs.modify fun _ b i hi => .inl hi
  | move label =>
    rw [moved, build_edited]
    exact hs
  | block name =>
    rw [build_withBlock]
    intro l b hb hl i hi
    rw [Builder.apply, Array.getElem?_push] at hb
    split at hb
    · obtain rfl := Option.some.inj hb
      cases hi
    · exact hs l b hb hl i hi

theorem cellsFirst_of_changes (h : ReflTransGen Changes s t) (hs : CellsFirst s.build.blocks) :
    CellsFirst t.build.blocks := by
  induction h with
  | refl => exact hs
  | tail _ hstep ih => exact hstep.cellsFirst ih

end Emission

/-! ## Functions -/

namespace Code.Function

/-- A block that takes what stands behind RETURN, BREAK or CONTINUE, by `IsTailName`. -/
def IsTail (f : Function) (label : Nat) : Prop :=
  ∃ b, f.blocks[label]? = some b ∧ IsTailName b.name

/-- `Function.Leads` is `HasEdge` of the blocks. -/
theorem leads_iff {f : Function} {source target : Nat} :
    f.Leads source target ↔ HasEdge f.blocks source target := by
  unfold Leads successors HasEdge
  cases hb : f.blocks[source]? with
  | none => simp
  | some b => cases hterm : b.terminator <;> simp [hterm]

/-- A function in which nothing `Leads` to the first block and to the tails, these lead to all
blocks, and cells are reserved in the first block only. -/
structure IsLaidOut (f : Function) : Prop where
  first : ¬ f.IsTail 0
  entered : ∀ source target, f.Leads source target → target ≠ 0 ∧ ¬ f.IsTail target
  reached : ∀ l < f.blocks.size, ∃ root, (root = 0 ∨ f.IsTail root) ∧ ReflTransGen f.Leads root l
  cells : CellsFirst f.blocks

/-- A function without blocks `IsLaidOut`. -/
theorem isLaidOut_external {f : Function} (h : f.body = .external) : f.IsLaidOut := by
  have hblocks : f.blocks = #[] := by
    unfold blocks
    rw [h]
  constructor
  · rintro ⟨b, hb, -⟩
    simp [hblocks] at hb
  · intro source target hleads
    obtain ⟨b, term, hb, -⟩ := leads_iff.mp hleads
    simp [hblocks] at hb
  · intro l hl
    simp [hblocks] at hl
  · intro l b hb
    simp [hblocks] at hb

end Code.Function

namespace Draft

variable {d : Draft} {start : Builder} (hstart : start.IsBegun)
include hstart

/-- The blocks of `Draft.function` are those of the draft, and the open ones return. -/
theorem getElem?_function {l : Nat} {c : Block} (h : (d.function start).blocks[l]? = some c) :
    ∃ b, d.build.blocks[l]? = some b ∧ c.instrs = b.instrs
      ∧ c.terminator = b.terminator.or (some (.ret (Value.zero? start.result))) := by
  have h : ((start.run d.script).blocks.map
    (·.terminate (.ret (Value.zero? start.result))))[l]? = some c := h
  rw [Array.getElem?_map] at h
  obtain ⟨b, hb, rfl⟩ := Option.map_eq_some_iff.mp h
  obtain ⟨b', hb', hsame⟩ := d.exists_content hstart hb
  obtain ⟨hinstrs, hterm⟩ := Prod.mk.inj hsame
  exact ⟨b', hb', hinstrs.symm, by rw [hterm]; rfl⟩

theorem size_function : (d.function start).blocks.size = d.build.blocks.size := by
  have hsize := congrArg Array.size (d.content_run_of_isBegun hstart)
  rw [Array.size_map, Array.size_map] at hsize
  exact (Array.size_map ..).trans hsize

theorem exists_function {l : Nat} {b : Block} (h : d.build.blocks[l]? = some b) :
    ∃ c, (d.function start).blocks[l]? = some c ∧ c.instrs = b.instrs
      ∧ c.terminator = b.terminator.or (some (.ret (Value.zero? start.result))) := by
  have hlt : l < (d.function start).blocks.size := by
    rw [size_function hstart]
    exact (Array.getElem?_eq_some_iff.mp h).1
  have hc := Array.getElem?_eq_getElem hlt
  obtain ⟨b', hb', hinstrs, hterm⟩ := getElem?_function hstart hc
  obtain rfl := Option.some.inj (h.symm.trans hb')
  exact ⟨_, hc, hinstrs, hterm⟩

theorem precede_function : Precede d.build.blocks (d.function start).blocks := by
  intro l b hb
  obtain ⟨c, hc, hinstrs, hterm⟩ := exists_function hstart hb
  refine ⟨c, hc, hinstrs ▸ List.prefix_rfl, fun term hend => ⟨hinstrs, ?_⟩⟩
  rw [hterm, hend]
  rfl

/-- A return leads nowhere, so `Draft.function` has the ways of its draft. -/
theorem hasEdge_function {source target : Nat} :
    HasEdge (d.function start).blocks source target ↔ HasEdge d.build.blocks source target := by
  constructor
  · rintro ⟨c, term, hc, hterm, htarget⟩
    obtain ⟨b, hb, -, hsame⟩ := getElem?_function hstart hc
    rw [hterm] at hsame
    cases hend : b.terminator with
    | none =>
      rw [hend] at hsame
      obtain rfl := Option.some.inj hsame
      cases htarget
    | some term' =>
      rw [hend] at hsame
      obtain rfl := Option.some.inj hsame
      exact ⟨b, term, hb, hend, htarget⟩
  · exact HasEdge.precede (precede_function hstart)

end Draft

/-- The tails of a function, by `IsTail`, are those of its draft. -/
theorem Emission.isTail_function {t : Emission} {name : String} {parameters : List Ty} {result : Ty}
    {n : Nat} {origin : Option String} {l : Nat} :
    (t.draft.function (.start name parameters result ("entry" ++ "." ++ toString n)
      origin)).IsTail l ↔ t.IsTail l := by
  have hnames := t.draft.blockNames_function name ("entry" ++ "." ++ toString n) parameters result
    origin
  have hname : ∀ l : Nat, (t.draft.function (.start name parameters result
      ("entry" ++ "." ++ toString n) origin)).blocks[l]?.map Block.name
      = (("entry" ++ "." ++ toString n) :: t.draft.blockNames)[l]? := by
    intro l
    rw [← hnames, Function.blockNames, List.getElem?_map, Array.getElem?_toList]
  have hfirst : ¬ IsTailName ("entry" ++ "." ++ toString n) := by
    rw [isTailName_label]
    decide
  constructor
  · rintro ⟨b, hb, htail⟩
    have hlabel := hname l
    rw [hb, Option.map_some] at hlabel
    -- the first block is not numbered by the draft, and its name is no tail's
    cases l with
    | zero =>
      obtain hsame := Option.some.inj hlabel
      rw [hsame] at htail
      exact absurd htail hfirst
    | succ k => exact ⟨k, b.name, rfl, hlabel.symm, htail⟩
  · rintro ⟨k, label, rfl, hk, htail⟩
    have hlabel := hname (k + 1)
    rw [List.getElem?_cons_succ, hk] at hlabel
    obtain ⟨b, hb, rfl⟩ := Option.map_eq_some_iff.mp hlabel
    exact ⟨b, hb, htail⟩

/-! ## Bodies that become functions -/

/-- A body that `IsBegun` has one block, which is its root, so it `IsRooted`. -/
theorem Emission.IsBegun.isRooted {s : Emission} (hs : s.IsBegun) (B : Bounds) :
    IsRooted B ⟨s, []⟩ := by
  constructor
  · intro term hterm
    rw [hs.terminators] at hterm
    cases hterm
  · rintro l ⟨term, hterm, -⟩
    have hterm : term ∈ s.draft.terminators := hterm
    rw [hs.terminators] at hterm
    cases hterm
  · intro l hl _
    have hl : l < s.draft.blocks := hl
    rw [hs.blocks] at hl
    obtain rfl : l = 0 := by omega
    exact ⟨0, .inl rfl, .refl⟩

theorem Emission.IsBegun.cellsFirst {s : Emission} (hs : s.IsBegun) :
    CellsFirst s.build.blocks := by
  intro l b hb hl
  have hlt := (Array.getElem?_eq_some_iff.mp hb).1
  rw [← hs.isOpen.count, hs.blocks] at hlt
  omega

namespace Code.Function.IsMadeOf

variable {f : Function} {body : List Statement}

/-- A function that `IsMadeOf` a body `IsLaidOut`, if every IF in the body has a branch. -/
theorem isLaidOut (h : f.IsMadeOf body) (hbody : Passes Statement.hasBranch body) :
    f.IsLaidOut := by
  obtain ⟨scene, s, t, parameters, result, n, origin, hs, hemit, hf⟩ := h
  have hstart :=
    Builder.isBegun_start f.name parameters result ("entry" ++ "." ++ toString n) origin
  obtain ⟨strays, hsteps, hnone⟩ := steps_emitStatements hemit hs.isOpen
  rw [hnone hbody] at hsteps
  -- where every IF has a branch no block is astray, so each has a root
  have hrooted := (hs.isRooted _).steps (isSound_nil hs.isOpen) hsteps
  have hopen := (isWoven_emitStatements scene none body hemit hs.isOpen).isOpen
  rw [hf]
  constructor
  · rw [isTail_function]
    rintro ⟨k, name, hk, -⟩
    cases hk
  · intro source target hleads
    have hedge := (Draft.hasEdge_function hstart).mp (leads_iff.mp hleads)
    rcases hrooted.lands target (targets_of_hasEdge hedge) with
      ⟨-, k, name, rfl, hk, hplain⟩ | ⟨l, hl, -⟩
    · refine ⟨Nat.succ_ne_zero k, fun htail => ?_⟩
      obtain ⟨k', name', hlabel, hk', htail⟩ := isTail_function.mp htail
      obtain rfl := Nat.succ.inj hlabel
      obtain rfl := Option.some.inj (hk.symm.trans hk')
      exact hplain htail
    · cases hl
  · intro l hl
    rw [Draft.size_function hstart] at hl
    have hl : l < t.build.blocks.size := hl
    rw [← hopen.count] at hl
    obtain ⟨root, hroot, hpath⟩ := hrooted.rooted l hl (List.not_mem_nil)
    refine ⟨root, hroot.imp_right isTail_function.mpr, ?_⟩
    refine ReflTransGen.mono (fun a b hedge => ?_) _ _ hpath
    exact leads_iff.mpr ((Draft.hasEdge_function hstart).mpr hedge)
  · intro l c hc hl i hi
    obtain ⟨b, hb, hinstrs, -⟩ := Draft.getElem?_function hstart hc
    rw [hinstrs] at hi
    exact cellsFirst_of_changes (traces_emitStatements scene none body hemit) hs.cellsFirst l b hb
      hl i hi

/-- Without an early exit no block `IsTail`. -/
theorem not_isTail (h : f.IsMadeOf body) (hbody : Passes Statement.fallsThrough body) (l : Nat) :
    ¬ f.IsTail l := by
  obtain ⟨scene, s, t, parameters, result, n, origin, hs, hemit, hf⟩ := h
  obtain ⟨strays, hsteps, -⟩ := steps_emitStatements hemit hs.isOpen
  have hnames : s.draft.blockNames = [] := by
    have hcounted := hs.isOpen.counted
    rw [Counted, hs.blocks] at hcounted
    exact List.eq_nil_of_length_eq_zero (by omega)
  rw [hf, isTail_function]
  intro htail
  rcases tails_of_steps hsteps htail with ⟨k, name, -, hname, -⟩ | hexit
  · have hname : s.draft.blockNames[k]? = some name := hname
    rw [hnames] at hname
    cases hname
  · exact hexit hbody

/-- Without an early exit the first block `Leads` to all blocks. -/
theorem leads_of_fallsThrough (h : f.IsMadeOf body) (hlaid : f.IsLaidOut)
    (hbody : Passes Statement.fallsThrough body) {l : Nat} (hl : l < f.blocks.size) :
    ReflTransGen f.Leads 0 l := by
  obtain ⟨root, rfl | htail, hpath⟩ := hlaid.reached l hl
  · exact hpath
  · exact absurd htail (h.not_isTail hbody root)

end Code.Function.IsMadeOf

/-- All functions of a program `IsLaidOut`, if every IF in the module has a branch. -/
theorem Module.isLaidOut_of_compile {m : Module} {platform : Platform} {p : Program}
    (h : m.compile platform = .ok p) (hm : ∀ q ∈ m.bodies, Passes Statement.hasBranch q.2) :
    ∀ f ∈ p.functions, f.IsLaidOut := by
  intro f hf
  rcases Module.isMadeOf_of_compile h hf with hexternal | ⟨body, hmem, hmade⟩
  · exact Function.isLaidOut_external hexternal
  · exact hmade.isLaidOut (hm _ hmem)

/-! ## Where calls come to -/

namespace Machine.Frame

/-- A call that stands in a block to which the first block of its function `Leads`. -/
def Walks (p : Program) (f : Frame) : Prop :=
  ∃ g ∈ p.functions, g.body = .blocks f.blocks
    ∧ ∃ l, f.blocks[l]? = some f.block ∧ ReflTransGen g.Leads 0 l

/-- `Walks` is kept by calls: a block is entered at the start or by an edge. -/
theorem isKept_walks (p : Program) : IsKept p (Walks p) := by
  constructor
  · rintro f ⟨g, hg, blocks, arguments, base, out, hbody, henter⟩
    obtain ⟨block, hblock, rfl⟩ := enter_eq_ok henter
    exact ⟨g, hg, hbody, 0, hblock, .refl⟩
  · rintro f code target f' ⟨g, hg, hbody, l, hl, hpath⟩ hgoes
    cases hgoes with
    | waits out x =>
      refine ⟨g, hg, ?_, l, ?_, hpath⟩
      · rw [blocks_set?, hbody]
      · rw [blocks_set?, block_set?, hl]
    | performs hrest out x =>
      refine ⟨g, hg, ?_, l, ?_, hpath⟩
      · rw [blocks_set?, hbody]
      · rw [blocks_set?, block_set?, hl]
    | jumps hjump hrest hterm hlabel =>
      obtain ⟨block, hblock, rfl⟩ := jump_eq_ok hjump
      have hblocks : g.blocks = f.blocks := by simp [Function.blocks, hbody]
      refine ⟨g, hg, hbody, _, hblock, hpath.tail ?_⟩
      exact Function.leads_iff.mpr ⟨f.block, _, hblocks ▸ hl, hterm, hlabel⟩

/-- Nothing leads to a tail, so no call that `Walks` comes to one. -/
theorem Walks.not_isTailName {p : Program} {f : Frame} (h : f.Walks p)
    (hp : ∀ g ∈ p.functions, g.IsLaidOut) : ¬ IsTailName f.block.name := by
  obtain ⟨g, hg, hbody, l, hl, hpath⟩ := h
  have hblocks : g.blocks = f.blocks := by simp [Function.blocks, hbody]
  intro htail
  have htail : g.IsTail l := ⟨f.block, hblocks ▸ hl, htail⟩
  rcases hpath.cases_tail with rfl | ⟨source, -, hleads⟩
  · exact (hp g hg).first htail
  · exact ((hp g hg).entered source l hleads).2 htail

end Machine.Frame

/-! ## Cells of a call -/

/-- The instructions of `code` that reserve cells. -/
def cells (code : List Instr) : List Instr :=
  code.filter Instr.isAlloca

/-- The instructions of a function that reserve cells: the `cells` of its blocks. -/
def cellsOf (blocks : Array Block) : List Instr :=
  blocks.toList.flatMap (cells ·.instrs)

theorem cells_eq_nil {code : List Instr} (h : ∀ i ∈ code, i.isAlloca = false) : cells code = [] :=
  List.filter_eq_nil_iff.mpr fun i hi => by simp [h i hi]

/-- Where `CellsFirst` holds, the cells of a function are those of its first block. -/
theorem CellsFirst.cellsOf_eq {blocks : Array Block} (h : CellsFirst blocks) {b : Block}
    (hb : blocks[0]? = some b) : cellsOf blocks = cells b.instrs := by
  obtain ⟨list⟩ := blocks
  cases list with
  | nil => simp at hb
  | cons first rest =>
    obtain rfl : first = b := by simpa using hb
    have hrest : rest.flatMap (cells ·.instrs) = [] := by
      refine List.flatMap_eq_nil_iff.mpr fun c hc => cells_eq_nil ?_
      obtain ⟨l, hl⟩ := List.mem_iff_getElem?.mp hc
      exact h (l + 1) c (by simpa using hl) (Nat.succ_ne_zero l)
    rw [cellsOf, List.flatMap_cons, hrest, List.append_nil]

/-- A call of a function with these blocks, after it has performed `code`: the cells that it has
reserved, and those of its block that it still will, are all of the function, in their order. -/
structure Machine.Frame.Reserves (blocks : Array Block) (code : List Instr) (f : Frame) : Prop where
  same : f.blocks = blocks
  stands : ∃ l : Nat, blocks[l]? = some f.block
  reserved : cells code ++ cells f.rest = cellsOf blocks

namespace Machine.Frame

/-- `Reserves` is kept when a call `Goes` on: what it has reserved and what it still will are the
cells of its function. -/
theorem Reserves.goes {g : Function} (hg : g.IsLaidOut) {code i : List Instr} {target : Option Nat}
    {f f' : Frame} (h : f.Reserves g.blocks code) (hgoes : f.Goes i target f') :
    f'.Reserves g.blocks (code ++ i) := by
  cases hgoes with
  | waits out x =>
    rw [List.append_nil]
    exact ⟨by rw [blocks_set?, h.same], by rw [block_set?]; exact h.stands,
      by rw [rest_set?, h.reserved]⟩
  | @performs i rest hrest out x =>
    refine ⟨by rw [blocks_set?]; exact h.same, by rw [block_set?]; exact h.stands, ?_⟩
    have hcells := h.reserved
    rw [hrest, ← List.singleton_append] at hcells
    unfold cells at hcells ⊢
    rw [List.filter_append, ← List.append_assoc] at hcells
    rw [rest_set?, List.filter_append]
    exact hcells
  | jumps hjump hrest hterm hlabel =>
    obtain ⟨block, hblock, rfl⟩ := jump_eq_ok hjump
    obtain ⟨l, hl⟩ := h.stands
    -- the new block is not the first one, so it reserves no cells
    have hleads : g.Leads l _ := Function.leads_iff.mpr ⟨f.block, _, hl, hterm, hlabel⟩
    rw [h.same] at hblock
    have hnone := cells_eq_nil (hg.cells _ block hblock (hg.entered l _ hleads).1)
    have hcells := h.reserved
    rw [hrest] at hcells
    refine ⟨h.same, ⟨_, hblock⟩, ?_⟩
    rw [List.append_nil, hnone]
    exact hcells

end Machine.Frame

/-- While a call lasts it `Reserves` each cell of its function once. -/
theorem Machine.Image.Performs.reserves {p : Program} (hp : ∀ g ∈ p.functions, g.IsLaidOut)
    {image : Image} {s t : State} {code : List Instr} (hs : s.frame.IsEntered p)
    (h : image.Performs s.callers.length s code t) :
    ∃ f, t.callAt? s.callers.length = some f ∧ f.Reserves s.frame.blocks code := by
  obtain ⟨g, hg, blocks, arguments, base, out, hbody, henter⟩ := hs
  obtain ⟨block, hblock, hframe⟩ := Frame.enter_eq_ok henter
  have hblocks : g.blocks = blocks := by simp [Function.blocks, hbody]
  subst hblocks
  have hstart : s.frame.Reserves g.blocks [] := by
    rw [hframe]
    exact ⟨rfl, ⟨0, hblock⟩, ((hp g hg).cells.cellsOf_eq hblock).symm⟩
  have hsame : s.frame.blocks = g.blocks := by rw [hframe]
  rw [hsame]
  exact h.keeps (P := fun code f => f.Reserves g.blocks code) hstart
    fun _ _ _ _ _ hf hgoes => hf.goes (hp g hg) hgoes

/-- In the program of a module in which every IF has a branch, no block leads to the first one of
its function or to one behind an early exit, and these lead to all. If there is no early exit in its
body, all blocks of a function are reached. When the program runs, no call ever stands in a block
behind an early exit, and each call reserves each cell of its function once, in the order in which
they stand. -/
theorem Module.control_flow {m : Module} {platform : Platform} {p : Program}
    (h : m.compile platform = .ok p) (hm : ∀ q ∈ m.bodies, Passes Statement.hasBranch q.2) :
    (∀ f ∈ p.functions,
      (∀ source target, f.Leads source target → target ≠ 0 ∧ ¬ f.IsTail target)
        ∧ (∀ l < f.blocks.size,
          ∃ root, (root = 0 ∨ f.IsTail root) ∧ ReflTransGen f.Leads root l)
        ∧ (f.body = .external ∨ ∃ body, (f.name, body) ∈ m.bodies ∧ f.IsMadeOf body
          ∧ (Passes Statement.fallsThrough body →
            ∀ l < f.blocks.size, ReflTransGen f.Leads 0 l)))
      ∧ ∀ input image M, Reaches p input image M →
        (∀ f ∈ M.frame :: M.callers, f.Walks p ∧ ¬ IsTailName f.block.name)
          ∧ (M.frame.IsEntered p → ∀ code N, image.Performs M.callers.length M code N →
            ∃ f, N.callAt? M.callers.length = some f ∧ f.blocks = M.frame.blocks
              ∧ cells code ++ cells f.rest = cellsOf f.blocks) := by
  have hlaid := Module.isLaidOut_of_compile h hm
  refine ⟨fun f hf => ⟨(hlaid f hf).entered, (hlaid f hf).reached, ?_⟩,
    fun input image M hM => ⟨?_, ?_⟩⟩
  · rcases Module.isMadeOf_of_compile h hf with hexternal | ⟨body, hmem, hmade⟩
    · exact .inl hexternal
    · refine .inr ⟨body, hmem, hmade, fun hbody l hl => ?_⟩
      exact hmade.leads_of_fallsThrough (hlaid f hf) hbody hl
  · intro f hf
    have hwalks := (Frame.isKept_walks p).of_reaches hM f hf
    exact ⟨hwalks, hwalks.not_isTailName hlaid⟩
  · intro hentered code N hperforms
    obtain ⟨f, hf, hreserves⟩ := hperforms.reserves hlaid hentered
    refine ⟨f, hf, hreserves.same, ?_⟩
    rw [hreserves.reserved, hreserves.same]

/-- A procedure whose loop is always left early, by a RETURN in it, and that has code behind each of
its early exits. -/
def Module.winding : Module where
  name := "M"
  declarations :=
    { vars := [(["x"], .integer)]
      procedures :=
        [.mk "P" [⟨false, ["n"], .integer⟩] (some .integer) { vars := [(["i"], .integer)] }
          [.forDo "i" (.literal (.integer 0)) (.designator "n" []) .up
            [.ifThen [(.relation (.designator "i" []) .greater (.literal (.integer 1)),
                [.returnWith (some (.designator "i" []))])]
              (some [.continueLoop]),
            .breakLoop],
          .returnWith (some (.designator "n" []))]] }
  body := some [.assign ⟨"x", []⟩ (.call "P" [.literal (.integer 5)])]

/-- The procedure is called by the first step; whatever it does then, it has reserved its two cells
or still will, each of them once. -/
theorem Module.control_flow_winding :
    (∀ q ∈ Module.winding.bodies, Passes Statement.hasBranch q.2)
      ∧ ∃ p image M f, Module.winding.compile .native = .ok p ∧ f ∈ p.functions ∧ f.IsTail 8
        ∧ (∀ source, ¬ f.Leads source 8) ∧ Reaches p "" image M ∧ M.frame.IsEntered p
        ∧ M.frame.blocks = f.blocks ∧ (cellsOf M.frame.blocks).length = 2
        ∧ ∀ code N, image.Performs 1 M code N →
          ∃ g, N.callAt? 1 = some g ∧ cells code ++ cells g.rest = cellsOf M.frame.blocks := by
  have hplain {s : Statement} (hs : s.hasBranch = true) (hparts : s.parts = []) :
      s.Every Statement.hasBranch :=
    .mk hs (hparts ▸ List.forall_mem_nil _)
  have hbodies : ∀ q ∈ Module.winding.bodies, Passes Statement.hasBranch q.2 := by
    refine List.forall_mem_cons.mpr ⟨?_, List.forall_mem_singleton.mpr ?_⟩
    · refine List.forall_mem_cons.mpr ⟨.mk rfl ?_, List.forall_mem_singleton.mpr (hplain rfl rfl)⟩
      refine List.forall_mem_cons.mpr ⟨.mk rfl ?_, List.forall_mem_singleton.mpr (hplain rfl rfl)⟩
      exact List.forall_mem_cons.mpr
        ⟨hplain rfl rfl, List.forall_mem_singleton.mpr (hplain rfl rfl)⟩
    · exact List.forall_mem_singleton.mpr (hplain rfl rfl)
  have hok : (Module.winding.compile .native).isOk = true := by decide +kernel
  have hfacts : ∀ p ∈ (Module.winding.compile .native).toOption,
      ((reach? p "" 0).bind fun r => (running? (r.1.step r.2)).bind fun M =>
        (p.function? "M.P").map fun f =>
          ([r.2.callers.length, M.callers.length, (cellsOf M.frame.blocks).length],
            decide (M.frame.blocks = f.blocks), f.blocks[8]?.map Block.name))
        = some ([0, 1, 2], true, some ("return.unreachable" ++ "." ++ toString 8)) := by
    decide +kernel
  refine ⟨hbodies, ?_⟩
  obtain ⟨p, hp⟩ := Except.exists_of_isOk hok
  have hrun := hfacts p (by rw [hp]; rfl)
  obtain ⟨⟨image, M₀⟩, hreach, hrun⟩ := Option.bind_eq_some_iff.mp hrun
  obtain ⟨M, hstep, hrun⟩ := Option.bind_eq_some_iff.mp hrun
  obtain ⟨f, hfound, hvalues⟩ := Option.map_eq_some_iff.mp hrun
  simp only [Prod.mk.injEq, List.cons.injEq, decide_eq_true_eq] at hvalues
  obtain ⟨⟨hbefore, hafter, hcells, -⟩, hblocks, hname⟩ := hvalues
  obtain ⟨b, hb, hname⟩ := Option.map_eq_some_iff.mp hname
  have hf := List.mem_of_find?_eq_some hfound
  have htail : f.IsTail 8 := ⟨b, hb, hname ▸ isTailName_label.mpr (by decide)⟩
  have hM₀ := reaches_of_reach? hreach
  have hmoves : image.Moves M₀ M := running?_eq_some.mp hstep
  have hM : Reaches p "" image M := by
    obtain ⟨m, first, hload, hstart, hsteps⟩ := hM₀
    exact ⟨m, first, hload, hstart, hsteps.tail hmoves⟩
  have hprogram : image.program = p := by
    obtain ⟨m, first, hload, -⟩ := hM
    exact load_program hload
  have hentered : M.frame.IsEntered p := by
    rw [← hprogram]
    exact hmoves.isEntered (by omega)
  obtain ⟨hshape, hruns⟩ := Module.control_flow hp hbodies
  refine ⟨p, image, M, f, hp, hf, htail, ?_, hM, hentered, hblocks, hcells, ?_⟩
  · intro source hleads
    exact ((hshape f hf).1 source 8 hleads).2 htail
  · intro code N hperforms
    rw [← hafter] at hperforms ⊢
    obtain ⟨g, hg, hsame, hreserved⟩ := (hruns "" image M hM).2 hentered code N hperforms
    exact ⟨g, hg, hsame ▸ hreserved⟩

end Oberon
