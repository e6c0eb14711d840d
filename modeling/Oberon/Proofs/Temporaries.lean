import Mathlib.Data.List.Perm.Subperm
import Oberon.Proofs.Sections

/-!
# Temporaries are defined once

Every temporary is drawn from one counter and defined by one instruction. While a procedure is
compiled the body around it waits; what the waiting bodies define is kept apart in the list
`waiting`. Functions never share a temporary, with each other or with a body under construction.
-/

namespace Oberon

open Code Relation

/-! ## What blocks and functions define -/

/-- The temporaries that a block defines, by `Instr.output`. -/
def Code.Block.outputs (b : Block) : List Nat :=
  b.instrs.filterMap Instr.output

/-- The temporaries that blocks define. -/
def outputsOf (blocks : List Block) : List Nat :=
  blocks.flatMap Block.outputs

/-- The temporaries that a function defines. -/
def Code.Function.outputs (f : Function) : List Nat :=
  outputsOf f.blocks.toList

theorem Code.Block.outputs_push (b : Block) (i : Instr) :
    (b.push i).outputs = b.outputs ++ i.output.toList := by
  cases h : i.output <;> simp [Block.outputs, Block.push, h]

theorem Code.Block.outputs_pushCell (b : Block) (i : Instr) :
    (b.pushCell i).outputs.Perm (b.outputs ++ i.output.toList) := by
  have hsplit : b.instrs.takeWhile Instr.isAlloca ++ b.instrs.dropWhile Instr.isAlloca = b.instrs :=
    List.takeWhile_append_dropWhile
  have hmove : (b.pushCell i).instrs.Perm (b.instrs ++ [i]) := by
    refine List.perm_middle.trans ?_
    rw [hsplit]
    exact (List.perm_append_singleton i _).symm
  refine (hmove.filterMap Instr.output).trans ?_
  exact Block.outputs_push b i ▸ List.Perm.refl _

/-- Where one block defines more, `outputsOf` all blocks have no more than that in addition. -/
theorem outputsOf_modify_subperm {f : Block → Block} {new : List Nat}
    (h : ∀ b, (f b).outputs.Perm (b.outputs ++ new)) (blocks : List Block) (label : Nat) :
    (outputsOf (blocks.modify label f)).Subperm (outputsOf blocks ++ new) := by
  induction blocks generalizing label with
  | nil =>
    cases label <;> exact List.nil_subperm
  | cons b rest ih =>
    cases label with
    | zero =>
      refine List.Perm.subperm ?_
      show ((f b).outputs ++ outputsOf rest).Perm (b.outputs ++ outputsOf rest ++ new)
      refine ((h b).append_right _).trans ?_
      rw [List.append_assoc, List.append_assoc]
      exact List.perm_append_comm.append_left _
    | succ label =>
      show (b.outputs ++ outputsOf (rest.modify label f)).Subperm
        (b.outputs ++ outputsOf rest ++ new)
      rw [List.append_assoc]
      exact (List.subperm_append_left _).mpr (ih label)

namespace Code.Builder

/-- `Builder.apply` defines at most the temporary of its edit. -/
theorem outputsOf_apply_subperm (b : Builder) (e : Edit) :
    (outputsOf (b.apply e).blocks.toList).Subperm
      (outputsOf b.blocks.toList ++ e.output.toList) := by
  cases e with
  | addBlock name =>
    refine List.Perm.subperm ?_
    simp [apply, outputsOf, Block.outputs, Edit.output]
  | switchTo label =>
    rw [Edit.output, Option.toList_none, List.append_nil]
    exact List.Subperm.refl _
  | push i =>
    rw [apply, Array.toList_modify]
    exact outputsOf_modify_subperm (fun b => .of_eq (b.outputs_push i)) _ _
  | pushEntry i =>
    rw [apply, Array.toList_modify]
    exact outputsOf_modify_subperm (fun b => b.outputs_pushCell i) _ _
  | terminate t =>
    rw [apply, Array.toList_modify]
    have hnone : ∀ b : Block, (b.terminate t).outputs.Perm (b.outputs ++ []) := fun b =>
      (List.append_nil b.outputs).symm ▸ List.Perm.refl _
    exact outputsOf_modify_subperm hnone _ _

theorem outputsOf_run_subperm (b : Builder) (script : Array Edit) :
    (outputsOf (b.run script).blocks.toList).Subperm
      (outputsOf b.blocks.toList ++ script.toList.filterMap Edit.output) := by
  rw [run, ← Array.foldl_toList]
  induction script.toList generalizing b with
  | nil =>
    rw [List.filterMap_nil, List.append_nil]
    exact List.Subperm.refl _
  | cons e rest ih =>
    refine (ih (b.apply e)).trans ?_
    have hrest : (e :: rest).filterMap Edit.output
        = e.output.toList ++ rest.filterMap Edit.output := by
      cases h : e.output <;> simp [h]
    rw [hrest, ← List.append_assoc]
    exact (List.subperm_append_right _).mpr (b.outputsOf_apply_subperm e)

end Code.Builder

/-- `Draft.function` defines no more than the draft. -/
theorem Draft.outputs_function_subperm (d : Draft) (name entry : String) (parameters : List Ty)
    (result : Ty) (origin : Option String) :
    (d.function (.start name parameters result entry origin)).outputs.Subperm d.outputs := by
  have hrun := (Builder.start name parameters result entry origin).outputsOf_run_subperm d.script
  have hclose : ∀ blocks : Array Block, ∀ t,
      outputsOf (blocks.map (·.terminate t)).toList = outputsOf blocks.toList := by
    intro blocks t
    simp only [outputsOf, Array.toList_map, List.flatMap_map]
    rfl
  show (outputsOf (((Builder.start name parameters result entry origin).run d.script).blocks.map
    _).toList).Subperm _
  rw [hclose]
  exact hrun

/-- `insertFunction` brings what the new function has, and may take away what another one had. -/
theorem Code.Program.flatMap_insertFunction_subperm {α : Type} (view : Function → List α)
    (f : Function) (functions : List Function) :
    ((insertFunction f functions).flatMap view).Subperm (view f ++ functions.flatMap view) := by
  induction functions with
  | nil => exact List.Subperm.refl _
  | cons g rest ih =>
    rw [insertFunction]
    split
    · simp only [List.flatMap_cons]
      refine (List.subperm_append_left _).mpr ?_
      exact (List.sublist_append_right _ _).subperm
    · simp only [List.flatMap_cons]
      refine ((List.subperm_append_left (view g)).mpr ih).trans (List.Perm.subperm ?_)
      rw [← List.append_assoc, ← List.append_assoc]
      exact List.perm_append_comm.append_right _

/-- A finished body becomes the function `f`, which has what the body has, and `extra`, which was
kept for it. The body around it goes on. -/
theorem Code.Program.subperm_insertFunction {α : Type} [DecidableEq α] (view : Function → List α)
    (extra : List α) {f : Function} {functions : List Function} {body outer waiting : List α}
    (hf : (view f).Subperm (extra ++ body)) :
    (outer ++ ((insertFunction f functions).flatMap view ++ waiting)).Subperm
      (body ++ (functions.flatMap view ++ (extra ++ outer ++ waiting))) := by
  have hfunctions := (flatMap_insertFunction_subperm view f functions).trans
    ((List.subperm_append_right (functions.flatMap view)).mpr hf)
  have hall := (List.subperm_append_left outer).mpr
    ((List.subperm_append_right waiting).mpr hfunctions)
  refine hall.trans (List.Perm.subperm ?_)
  rw [List.perm_iff_count]
  intro x
  simp only [List.count_append]
  omega

/-! ## Compilations -/

/-- The temporaries defined so far, in the body under construction, in functions and in bodies that
wait, whose temporaries are `waiting`. -/
def Session.outputs (waiting : List Nat) (s : Session) : List Nat :=
  s.draft.outputs ++ (s.functions.flatMap Function.outputs ++ waiting)

/-- No temporary of `Session.outputs` was defined twice, and all of them were drawn. -/
structure Session.Distinct (waiting : List Nat) (s : Session) : Prop where
  nodup : (s.outputs waiting).Nodup
  drawn : ∀ n ∈ s.outputs waiting, n < s.stock.temps

namespace Session.Distinct

variable {waiting : List Nat} {s t : Session}

/-- `Distinct` for fewer temporaries. -/
theorem of_subperm {waiting' : List Nat} (h : s.Distinct waiting)
    (hsub : (t.outputs waiting').Subperm (s.outputs waiting))
    (htemps : s.stock.temps ≤ t.stock.temps) : t.Distinct waiting' := by
  obtain ⟨l, hperm, hsublist⟩ := hsub
  refine ⟨hperm.nodup_iff.mp (hsublist.nodup h.nodup), fun n hn => ?_⟩
  exact (h.drawn n (hsublist.subset (hperm.mem_iff.mpr hn))).trans_le htemps

theorem declares (h : s.Distinct waiting) (hst : s.Declares t) : t.Distinct waiting := by
  obtain ⟨hstock, new, hnew, hnodup, hbounds⟩ := hst.grows
  have hnew : t.draft.outputs = s.draft.outputs ++ new := hnew
  have hout : (t.outputs waiting).Perm (s.outputs waiting ++ new) := by
    rw [outputs, outputs, hnew, hst.functions, List.append_assoc, List.append_assoc]
    exact List.perm_append_comm.append_left _
  refine ⟨hout.nodup_iff.mpr (h.nodup.append hnodup fun n hn hn' => ?_), fun n hn => ?_⟩
  · exact absurd (h.drawn n hn) (Nat.not_lt.mpr (hbounds n hn').1)
  · rcases List.mem_append.mp (hout.mem_iff.mp hn) with hn | hn
    · exact (h.drawn n hn).trans_le hstock.temps
    · exact (hbounds n hn).2

/-- `Session.opened` makes the current body wait, and temporaries stay `Distinct`. -/
theorem opened (h : s.Distinct waiting) : s.opened.Distinct (s.draft.outputs ++ waiting) := by
  refine h.of_subperm (List.Perm.subperm ?_) le_rfl
  show (([] : List Nat) ++ (s.functions.flatMap Function.outputs
    ++ (s.draft.outputs ++ waiting))).Perm
      (s.draft.outputs ++ (s.functions.flatMap Function.outputs ++ waiting))
  rw [List.nil_append, ← List.append_assoc, ← List.append_assoc]
  exact List.perm_append_comm.append_right _

/-- `Session.finished` makes the body a function, the one that waited goes on, and temporaries stay
`Distinct`. -/
theorem finished {outer : Draft} (h : s.Distinct (outer.outputs ++ waiting))
    (name entry : String) (parameters : List Ty) (result : Ty) (origin : Option String) :
    (s.finished (s.draft.function (.start name parameters result entry origin)) outer).Distinct
      waiting := by
  have hbody := s.draft.outputs_function_subperm name entry parameters result origin
  exact h.of_subperm (Program.subperm_insertFunction Function.outputs [] hbody) le_rfl

/-- `Distinct` is an invariant of compiling procedures: no temporary is defined twice. -/
theorem invariant :
    Session.Invariant (fun waiting s => s.Distinct waiting) (·.draft.outputs) := by
  constructor
  case declares =>
    intro waiting s t h hst
    exact h.declares hst
  case opens =>
    intro waiting s types name sig h
    have hbound : ((s.withTypes types).bind name (.procedure sig)).Distinct waiting :=
      ⟨h.nodup, h.drawn⟩
    exact hbound.opened
  case closes =>
    intro waiting s t sig h
    have hfinished :=
      h.finished sig.symbol s.entryLabel sig.parameterTypes sig.result (some sig.symbol)
    exact ⟨hfinished.nodup, hfinished.drawn⟩

end Session.Distinct

/-- No two instructions of a program that `Module.compile` gives define the same temporary. -/
theorem Module.nodup_outputs_of_compile {m : Module} {platform : Platform} {p : Program}
    (h : m.compile platform = .ok p) : (p.functions.flatMap Function.outputs).Nodup := by
  obtain ⟨a, b, c, d, e, entry, ha, hb, hc, hd, he, rfl⟩ := Module.compile_ok h
  obtain ⟨hfunctions, hemission⟩ :=
    Session.code_of_collects (Module.collects_of_sections ha hb hc)
  obtain ⟨hstock, hdraft⟩ := Emission.mk.inj hemission
  have hc : c.Distinct [] := by
    have hnone : c.outputs [] = [] := by
      rw [Session.outputs, hdraft, hfunctions]
      rfl
    refine ⟨?_, ?_⟩ <;> rw [hnone]
    · exact List.nodup_nil
    · exact List.forall_mem_nil _
  have hd' : d.Distinct [] := Session.Distinct.invariant.compileProcedures hd hc
  have hstarted : d.started.Distinct [] := by
    refine hd'.of_subperm ?_ le_rfl
    exact (List.sublist_append_right _ _).subperm
  have hbody : e.Distinct (Draft.outputs {} ++ []) :=
    Session.Distinct.invariant.of_declares hstarted (Compile.traces_statements _ _ he)
  have hdone := hbody.finished entryName entry [] .status none
  refine List.Nodup.sublist ?_ hdone.nodup
  exact (List.sublist_append_left _ _).trans (List.sublist_append_right _ _)

end Oberon
