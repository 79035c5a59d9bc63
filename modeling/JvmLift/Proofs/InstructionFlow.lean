import Mathlib
import JvmLift.Proofs.Blocks
import JvmLift.Proofs.Opcodes
import JvmLift.Proofs.Tiling

/-!
# Flow between instructions

Control passes from an instruction to the one behind it, or to a target that it names. The graph of the blocks, cut also
behind exits, is this relation and nothing else: its edges are the steps between blocks, and inside a block every
instruction is followed by the next.
-/

namespace JvmLift.Bytecode

/-! ### Targets -/

/-- An instruction names targets if and only if its role is to transfer control to them. -/
structure Instruction.WellAimed (i : Instruction) : Prop where
  target : i.target?.isSome = (i.isConditional || i.isJump)
  table : i.switchTable?.isSome = i.isSwitch

lemma layout_of_role : ∀ row ∈ Opcode.known,
    (row.2.layout = .branch ∨ row.2.layout = .branchWide ↔ (row.2.role.isConditional || row.2.role.isJump) = true) ∧
      (row.2.layout = .tableSwitch ∨ row.2.layout = .lookupSwitch ↔ row.2.role.isSwitch = true) := by
  decide +kernel

lemma Instruction.isSome_target?_iff {i : Instruction} :
    i.target?.isSome = true ↔ ∃ target, i.operand = .branch target := by
  unfold target?
  cases i.operand <;> simp

lemma Instruction.isSome_switchTable?_iff {i : Instruction} :
    i.switchTable?.isSome = true ↔ ∃ table, i.operand = .switch table := by
  unfold switchTable?
  cases i.operand <;> simp

lemma Instruction.Encodable.role_eq {i : Instruction} (h : i.Encodable) {info : OpcodeInfo}
    (hinfo : i.opcode.info? = some info) : i.role = info.role := by
  rw [role, h.not_undecoded, Opcode.role, hinfo]
  rfl

lemma Instruction.Encodable.wellAimed {i : Instruction} (h : i.Encodable) : i.WellAimed := by
  obtain ⟨layout, hlayout, hholds⟩ := h.operand
  obtain ⟨info, hinfo, rfl⟩ := Option.map_eq_some_iff.mp hlayout
  obtain ⟨hbranch, hswitch⟩ := layout_of_role _ (Opcode.mem_known hinfo)
  constructor
  · rw [Bool.eq_iff_iff, isConditional, isJump, h.role_eq hinfo, ← hbranch, isSome_target?_iff, hholds.branch_iff]
  · rw [Bool.eq_iff_iff, isSwitch, h.role_eq hinfo, ← hswitch, isSome_switchTable?_iff, hholds.switch_iff]

lemma Instruction.wellAimed_of_undecoded {i : Instruction} (h : i.isUndecoded = true) : i.WellAimed := by
  obtain ⟨offset, op, operand, size⟩ := i
  cases operand with
  | undecoded bytes reason => exact ⟨rfl, rfl⟩
  | _ => simp [isUndecoded] at h

end JvmLift.Bytecode

namespace JvmLift.Flow

open Bytecode Relation

/-- Instructions that fit together: their offsets ascend, their operands fit their roles, and a tail is the last. -/
structure Coherent (insns : List Instruction) : Prop where
  ascending : Ascending insns
  wellAimed : ∀ i ∈ insns, i.WellAimed
  tail_last : ∀ i ∈ insns.dropLast, i.isUndecoded = false

lemma ascending_of_contiguous {offset : Nat} {insns : List Instruction} (h : Contiguous offset insns)
    (hpos : ∀ i ∈ insns, 1 ≤ i.size) : Ascending insns := by
  induction insns generalizing offset with
  | nil => exact .nil
  | cons i insns ih =>
    obtain ⟨hi, hinsns⟩ := List.forall_mem_cons.mp hpos
    refine List.pairwise_cons.mpr ⟨fun j hj => ?_, ih h.2 hinsns⟩
    have := h.2.le_offset j hj
    rw [Instruction.next] at this
    omega

/-- Neighbours touch. -/
lemma offset_of_pair_infix {offset : Nat} {insns : List Instruction} (h : Contiguous offset insns)
    {i j : Instruction} (hpair : [i, j] <:+: insns) : j.offset = i.next := by
  induction insns generalizing offset with
  | nil => simp at hpair
  | cons k insns ih =>
    rcases pair_infix_cons.mp hpair with ⟨rfl, hhead⟩ | hpair
    · cases insns with
      | nil => cases hhead
      | cons l insns =>
        cases hhead
        exact h.2.1
    · exact ih h.2 hpair

lemma coherent_decode (code : List UInt8) : Coherent (decode code) where
  ascending := ascending_of_contiguous (tiles_decode code).contiguous (tiles_decode code).size_pos
  wellAimed := by
    intro i hi
    cases hdecoded : i.isUndecoded with
    | true => exact Instruction.wellAimed_of_undecoded hdecoded
    | false => exact ((tiles_decode code).encodable i hi hdecoded).wellAimed
  tail_last := (tiles_decode code).tail_last

/-! ### Edges of one block -/

lemma mem_targets_resolved {resolve : Nat → Option BlockId} {table : SwitchTable} {id : BlockId} :
    id ∈ (SwitchEdges.mk (resolve table.default)
        (table.cases.filterMap fun (key, target) => (resolve target).map (key, ·))).targets ↔
      ∃ target ∈ table.default :: table.cases.map Prod.snd, resolve target = some id := by
  simp only [SwitchEdges.targets, List.mem_eraseDups, List.mem_append, Option.mem_toList, List.mem_map,
    List.mem_filterMap, Option.map_eq_some_iff, List.mem_cons, exists_eq_or_imp]
  refine or_congr Iff.rfl ⟨?_, ?_⟩
  · rintro ⟨_, ⟨⟨key, target⟩, hcase, id, hid, rfl⟩, rfl⟩
    exact ⟨target, ⟨_, hcase, rfl⟩, hid⟩
  · rintro ⟨_, ⟨⟨key, target⟩, hcase, rfl⟩, hid⟩
    exact ⟨_, ⟨_, hcase, id, hid, rfl⟩, rfl⟩

section Edges

variable {i : Instruction} {b : Block} {resolve : Nat → Option BlockId} {next : Option BlockId}

/-- The roles that decide on edges exclude one another. -/
lemma roles_apart (i : Instruction) :
    ((i.isJump || i.isConditional || i.isExit) = true → i.isSwitch = false) ∧
      (i.isConditional = true → i.isExit = false) := by
  unfold Instruction.isJump Instruction.isConditional Instruction.isExit Instruction.isSwitch
  cases i.role <;> decide

/-- The targets of an instruction that is no switch. -/
lemma exists_target_iff (htable : i.switchTable? = none) {id : BlockId} :
    (∃ target ∈ i.targets, resolve target = some id) ↔ id ∈ (i.target?.bind resolve).toList := by
  simp [Instruction.targets, htable, Option.bind_eq_some_iff]

/-- The edges of a block lead on to the next block, unless its last instruction leaves, and to the targets of this
instruction. -/
lemma mem_successors_of_edges (hi : i.WellAimed) (hedges : (b.succs, b.switch) = edgesOf resolve next (some i))
    {id : BlockId} :
    id ∈ b.successors ↔ (i.isJump = false ∧ i.isExit = false ∧ i.isSwitch = false ∧ next = some id) ∨
      ∃ target ∈ i.targets, resolve target = some id := by
  obtain ⟨htarget, htable⟩ := hi
  obtain ⟨hapart, hapart'⟩ := roles_apart i
  have hnotable (h : (i.isJump || i.isConditional || i.isExit) = true) : i.switchTable? = none := by
    rwa [hapart h, Option.isSome_eq_false_iff, Option.isNone_iff_eq_none] at htable
  rw [FlowGraph.mem_successors_iff]
  simp only [edgesOf] at hedges
  split_ifs at hedges with hjump hconditional hexit hswitch <;> obtain ⟨hsuccs, hedges⟩ := Prod.mk.inj hedges <;>
    rw [hsuccs, hedges]
  · rw [exists_target_iff (hnotable (by simp [hjump]))]
    simp [hjump]
  · rw [exists_target_iff (hnotable (by simp [hconditional]))]
    simp [hjump, hapart (by simp [hconditional]), hapart' hconditional, or_comm]
  · have hnone : i.target? = none := by simpa [hjump, hconditional] using htarget
    rw [exists_target_iff (hnotable (by simp [hexit])), hnone]
    simp [hexit]
  · have hnone : i.target? = none := by simpa [hjump, hconditional] using htarget
    obtain ⟨table, hs⟩ := Option.isSome_iff_exists.mp (htable.trans hswitch)
    simp [hs, hnone, hswitch, Instruction.targets, mem_targets_resolved]
  · have hnone : i.target? = none := by simpa [hjump, hconditional] using htarget
    rw [exists_target_iff (by simpa [hswitch] using htable), hnone]
    simp [hjump, hexit, hswitch]

/-- A block has two ordinary successors at most. It has two only behind a conditional branch, the taken one first. -/
lemma succs_of_edges (hedges : (b.succs, b.switch) = edgesOf resolve next (some i)) :
    b.succs.length ≤ 2 ∧ (b.succs.length = 2 → ∃ target taken other, i.isConditional = true ∧ i.target? = some target ∧
      resolve target = some taken ∧ next = some other ∧ b.succs = [taken, other]) := by
  have hone (o : Option BlockId) : o.toList.length < 2 := by cases o <;> simp
  simp only [edgesOf] at hedges
  split_ifs at hedges with hjump hconditional hexit hswitch <;> obtain ⟨hsuccs, -⟩ := Prod.mk.inj hedges <;> rw [hsuccs]
  · have := hone (i.target?.bind resolve)
    exact ⟨by omega, by omega⟩
  · cases htaken : i.target?.bind resolve with
    | none => cases next <;> simp [List.eraseDups_cons]
    | some taken =>
      obtain ⟨target, htarget, hresolve⟩ := Option.bind_eq_some_iff.mp htaken
      cases next with
      | none => simp [List.eraseDups_cons]
      | some other =>
        by_cases heq : other = taken
        · simp [List.eraseDups_cons, heq]
        · have hpair : [taken, other].eraseDups = [taken, other] := by simp [List.eraseDups_cons, heq]
          exact ⟨hpair ▸ le_refl 2, fun _ => ⟨target, taken, other, hconditional, htarget, hresolve, rfl, hpair⟩⟩
  · simp
  · simp
  · have := hone next
    exact ⟨by omega, by omega⟩

end Edges

/-! ### Edges of the graph -/

/-- Control passes from an instruction to another: to the one behind it, unless it leaves, or to one that it names. -/
inductive Passes (insns : List Instruction) (i j : Instruction) : Prop
  | next (adjacent : [i, j] <:+: insns) (jump : i.isJump = false) (exit : i.isExit = false)
      (switch : i.isSwitch = false) (decoded : i.isUndecoded = false)
  | target (source : i ∈ insns) (destination : j ∈ insns) (named : j.offset ∈ i.targets)

lemma Passes.source_mem {insns : List Instruction} {i j : Instruction} (h : Passes insns i j) : i ∈ insns := by
  rcases h with ⟨hpair, -⟩ | ⟨hi, -⟩
  · exact hpair.subset (by simp)
  · exact hi

lemma Passes.destination_mem {insns : List Instruction} {i j : Instruction} (h : Passes insns i j) : j ∈ insns := by
  rcases h with ⟨hpair, -⟩ | ⟨-, hj, -⟩
  · exact hpair.subset (by simp)
  · exact hj

lemma passes_iff {insns : List Instruction} {i j : Instruction} :
    Passes insns i j ↔
      ([i, j] <:+: insns ∧ i.isJump = false ∧ i.isExit = false ∧ i.isSwitch = false ∧ i.isUndecoded = false) ∨
        (i ∈ insns ∧ j ∈ insns ∧ j.offset ∈ i.targets) := by
  constructor
  · rintro (⟨hpair, hjump, hexit, hswitch, hdecoded⟩ | ⟨hi, hj, hnamed⟩)
    · exact .inl ⟨hpair, hjump, hexit, hswitch, hdecoded⟩
    · exact .inr ⟨hi, hj, hnamed⟩
  · rintro (⟨hpair, hjump, hexit, hswitch, hdecoded⟩ | ⟨hi, hj, hnamed⟩)
    · exact .next hpair hjump hexit hswitch hdecoded
    · exact .target hi hj hnamed

instance (insns : List Instruction) (i j : Instruction) : Decidable (Passes insns i j) :=
  decidable_of_iff _ passes_iff.symm

namespace FlowGraph

variable {insns : List Instruction} {extra : List Nat}

/-- The block that a target is resolved to is the one that starts there. -/
lemma resolve_iff {n : Nat} {id : BlockId} :
    (blockStarts true extra insns).idxOf? n = some id ↔
      ∃ b, (withLeaders insns extra).block? id = some b ∧ b.start = n := by
  have hnodup : (blockStarts true extra insns).Nodup := (pairwise_blockStarts true extra insns).imp Nat.ne_of_lt
  constructor
  · intro h
    obtain ⟨hlt, hget, -⟩ := List.findIdx?_eq_some_iff_getElem.mp h
    obtain ⟨b, hb⟩ : ∃ b, (withLeaders insns extra).block? id = some b :=
      exists_block? (by rwa [withLeaders, size_build])
    have hstart := start_of_block?_build hb
    rw [List.getElem?_eq_getElem hlt, Option.some.injEq] at hstart
    exact ⟨b, hb, hstart ▸ by simpa using hget⟩
  · rintro ⟨b, hb, rfl⟩
    obtain ⟨hlt, hget⟩ := List.getElem?_eq_some_iff.mp (start_of_block?_build hb)
    refine List.findIdx?_eq_some_iff_getElem.mpr ⟨hlt, by simp [hget], fun k hk => ?_⟩
    simp only [beq_iff_eq, ← hget]
    exact fun heq => absurd (hnodup.getElem_inj_iff.mp heq) (by omega)

/-- The last instruction of a block decides on its edges. -/
lemma edges_withLeaders {id : BlockId} {b : Block} (hb : (withLeaders insns extra).block? id = some b)
    {i : Instruction} (hlast : b.last? = some i) :
    (b.succs, b.switch) = edgesOf ((blockStarts true extra insns).idxOf? ·)
      (if id + 1 < (withLeaders insns extra).size then some (id + 1) else none) (some i) := by
  rw [withLeaders, size_build, ← hlast]
  exact (block?_build hb).2.2.1

lemma cuts_withLeaders (hinsns : Coherent insns) (extra : List Nat) : (withLeaders insns extra).Cuts insns :=
  cuts_build hinsns.ascending

section Coherent

variable (hinsns : Coherent insns)
include hinsns

/-- An instruction with another one behind it in its block does nothing but go on to it. -/
lemma plain_of_interior {id : BlockId} {b : Block} (hb : (withLeaders insns extra).block? id = some b)
    {i j : Instruction} (hpair : [i, j] <:+: b.body) : i.isTransfer = false ∧ i.isExit = false :=
  (stays_of_interior hinsns.ascending hb hpair).imp_right fun hexit => hexit rfl

lemma not_undecoded_of_followed {i j : Instruction} (hpair : [i, j] <:+: insns) : i.isUndecoded = false := by
  obtain ⟨front, back, rfl⟩ := hpair
  exact hinsns.tail_last i (by simp [List.dropLast_append_of_ne_nil])

omit hinsns in
lemma targets_of_not_transfer {i : Instruction} (hi : i.WellAimed) (h : i.isTransfer = false) : i.targets = [] := by
  obtain ⟨htarget, htable⟩ := hi
  simp only [Instruction.isTransfer, Role.isTransfer, Bool.or_eq_false_iff] at h
  simp only [Instruction.isConditional, Instruction.isJump, Instruction.isSwitch, h] at htarget htable
  rw [Bool.or_false, Option.isSome_eq_false_iff, Option.isNone_iff_eq_none] at htarget
  rw [Option.isSome_eq_false_iff, Option.isNone_iff_eq_none] at htable
  simp [Instruction.targets, htarget, htable]

/-- **Edges.** A block leads to another if and only if control passes from its last instruction to the first of the
other. -/
lemma mem_successors_iff_passes {id id' : BlockId} {b b' : Block} (hb : (withLeaders insns extra).block? id = some b)
    (hb' : (withLeaders insns extra).block? id' = some b') {i j : Instruction} (hlast : b.last? = some i)
    (hhead : b'.body.head? = some j) : id' ∈ b.successors ↔ Passes insns i j := by
  have hg := cuts_withLeaders hinsns extra
  have hi : i ∈ insns := hg.mem_of_mem_body hb (List.mem_of_getLast? hlast)
  have hjb : j ∈ b'.body := List.mem_of_mem_head? hhead
  have hj : j ∈ insns := hg.mem_of_mem_body hb' hjb
  have hstart : b'.start = j.offset := by
    obtain ⟨k, hk, hoffset⟩ := hg.head?_body hb'
    rw [← hoffset, Option.some.inj (hk.symm.trans hhead)]
  rw [mem_successors_of_edges (hinsns.wellAimed i hi) (edges_withLeaders hb hlast)]
  constructor
  · rintro (⟨hjump, hexit, hswitch, hnext⟩ | ⟨target, htarget, hresolve⟩)
    · obtain rfl : id + 1 = id' := by
        split at hnext
        · exact Option.some.inj hnext
        · cases hnext
      have hpair : [i, j] <:+: insns := hg.pair_infix_iff.mpr (.inr ⟨id, b, b', hb, hb', hlast, hhead⟩)
      exact .next hpair hjump hexit hswitch (not_undecoded_of_followed hinsns hpair)
    · obtain ⟨c, hc, hcstart⟩ := resolve_iff.mp hresolve
      obtain rfl := Option.some.inj (hc.symm.trans hb')
      exact .target hi hj (by rwa [← hstart, hcstart])
  · rintro (⟨hpair, hjump, hexit, hswitch, -⟩ | ⟨-, -, hnamed⟩)
    · left
      refine ⟨hjump, hexit, hswitch, ?_⟩
      obtain ⟨c, hc, hhead'⟩ := hg.exists_next_of_last hinsns.ascending hb hlast hpair
      obtain rfl := hg.id_eq_of_mem hinsns.ascending hb' hc hjb (List.mem_of_mem_head? hhead')
      exact if_pos (lt_size_of_block? hb')
    · exact .inr ⟨j.offset, hnamed, resolve_iff.mpr ⟨b', hb', hstart⟩⟩

/-- Only a conditional branch has two ordinary successors: where it jumps to, then what stands behind it. -/
lemma succs_withLeaders {id : BlockId} {b : Block} (hb : (withLeaders insns extra).block? id = some b) :
    b.succs.length ≤ 2 ∧ (b.succs.length = 2 → ∃ i target taken b',
      b.last? = some i ∧ i.isConditional = true ∧ i.target? = some target ∧
        (withLeaders insns extra).block? taken = some b' ∧ b'.start = target ∧ b.succs = [taken, id + 1]) := by
  have hlast : b.last? = some (b.body.getLast _) :=
    List.getLast?_eq_some_getLast ((cuts_withLeaders hinsns extra).body_ne_nil hb)
  obtain ⟨hle, htwo⟩ := succs_of_edges (edges_withLeaders hb hlast)
  refine ⟨hle, fun hlength => ?_⟩
  obtain ⟨target, taken, other, hconditional, htarget, hresolve, hnext, hsuccs⟩ := htwo hlength
  obtain ⟨b', hb', hstart⟩ := resolve_iff.mp hresolve
  split at hnext
  · cases hnext
    exact ⟨_, target, taken, b', hlast, hconditional, htarget, hb', hstart, hsuccs⟩
  · cases hnext

/-- **Blocks.** Inside a block, control passes from an instruction to the next one and to no other. -/
lemma passes_iff_of_interior {id : BlockId} {b : Block} (hb : (withLeaders insns extra).block? id = some b)
    {i j : Instruction} (hpair : [i, j] <:+: b.body) (k : Instruction) : Passes insns i k ↔ k = j := by
  have hcode : [i, j] <:+: insns := (cuts_withLeaders hinsns extra).pair_infix_iff.mpr (.inl ⟨id, b, hb, hpair⟩)
  obtain ⟨htransfer, hexit⟩ := plain_of_interior hinsns hb hpair
  have htargets := targets_of_not_transfer (hinsns.wellAimed i (hcode.subset (by simp))) htransfer
  constructor
  · rintro (⟨hpair', -⟩ | ⟨-, -, hnamed⟩)
    · exact hinsns.ascending.eq_of_pair_infix hpair' hcode
    · simp [htargets] at hnamed
  · rintro rfl
    simp only [Instruction.isTransfer, Role.isTransfer, Bool.or_eq_false_iff] at htransfer
    exact .next hcode htransfer.1.2 hexit htransfer.2 (not_undecoded_of_followed hinsns hcode)

/-- Where control passes to from the last instruction of a block, a block begins. -/
lemma head?_of_passes {id id' : BlockId} {b b' : Block} (hb : (withLeaders insns extra).block? id = some b)
    (hb' : (withLeaders insns extra).block? id' = some b') {i j : Instruction} (hlast : b.last? = some i)
    (hpasses : Passes insns i j) (hj : j ∈ b'.body) : b'.body.head? = some j := by
  have hg := cuts_withLeaders hinsns extra
  rcases hpasses with ⟨hpair, -⟩ | ⟨hi, hjmem, hnamed⟩
  · obtain ⟨c, hc, hhead⟩ := hg.exists_next_of_last hinsns.ascending hb hlast hpair
    obtain rfl := hg.id_eq_of_mem hinsns.ascending hb' hc hj (List.mem_of_mem_head? hhead)
    rwa [Option.some.inj (hb'.symm.trans hc)]
  · have htransfer : i.isTransfer = true := by
      by_contra hplain
      simp [targets_of_not_transfer (hinsns.wellAimed i hi) (Bool.eq_false_iff.mpr hplain)] at hnamed
    exact head?_of_mem_blockStarts hinsns.ascending hjmem (mem_blockStarts.mpr ⟨List.mem_map_of_mem hjmem,
      .inr (.inr (mem_inherentLeaders_of_target hi htransfer hnamed))⟩) hb' hj

/-! ### Reachability -/

/-- Where instructions lead to, their blocks lead to. -/
lemma reaches_block {first i : Instruction} (hfirst : insns.head? = some first)
    (hpath : ReflTransGen (Passes insns) first i) {id : BlockId} {b : Block}
    (hb : (withLeaders insns extra).block? id = some b) (hi : i ∈ b.body) :
    ReflTransGen (Along (withLeaders insns extra).successors) 0 id := by
  have hg := cuts_withLeaders hinsns extra
  induction hpath generalizing id b with
  | refl =>
    obtain rfl := hg.id_eq_zero_of_first hinsns.ascending hfirst hb hi
    exact .refl
  | @tail k j _ hpasses ih =>
    obtain ⟨m, c, hc, hk⟩ := hg.exists_block hpasses.source_mem
    rcases getLast?_or_pair_infix hk with hlast | ⟨l, hpair⟩
    · -- control leaves the block
      have hhead := head?_of_passes hinsns hc hb hlast hpasses hi
      refine (ih hc hk).tail ?_
      rw [Along, successors_of_block? hc]
      exact (mem_successors_iff_passes hinsns hc hb hlast hhead).mpr hpasses
    · -- control stays in the block
      obtain rfl := (passes_iff_of_interior hinsns hc hpair j).mp hpasses
      obtain rfl := hg.id_eq_of_mem hinsns.ascending hb hc hi (hpair.subset (by simp))
      exact ih hc hk

/-- Where blocks lead to, their instructions lead to. -/
lemma reaches_instruction {first i : Instruction} (hfirst : insns.head? = some first) {id : BlockId} {b : Block}
    (hpath : ReflTransGen (Along (withLeaders insns extra).successors) 0 id)
    (hb : (withLeaders insns extra).block? id = some b) (hi : i ∈ b.body) :
    ReflTransGen (Passes insns) first i := by
  have hg := cuts_withLeaders hinsns extra
  have hinside {m : BlockId} {c : Block} (hc : (withLeaders insns extra).block? m = some c) {j k : Instruction}
      (hj : c.body.head? = some j) (hk : k ∈ c.body) : ReflTransGen (Passes insns) j k :=
    reflTransGen_of_pair_infix (fun x y hpair => (passes_iff_of_interior hinsns hc hpair y).mpr rfl) hj hk
  induction hpath generalizing b i with
  | refl =>
    obtain ⟨m, c, hc, hmem⟩ := hg.exists_block (List.mem_of_mem_head? hfirst)
    obtain rfl := hg.id_eq_zero_of_first hinsns.ascending hfirst hc hmem
    obtain rfl := Option.some.inj (hb.symm.trans hc)
    refine hinside hb (head?_of_mem_blockStarts hinsns.ascending (List.mem_of_mem_head? hfirst) ?_ hb hmem) hi
    exact mem_blockStarts.mpr ⟨List.mem_map_of_mem (List.mem_of_mem_head? hfirst), .inl (by simp [hfirst])⟩
  | @tail m id _ hedge ih =>
    cases hc : (withLeaders insns extra).block? m with
    | none => simp [Along, successors, hc] at hedge
    | some c =>
      rw [Along, successors_of_block? hc] at hedge
      have hlast : c.last? = some (c.body.getLast (hg.body_ne_nil hc)) := List.getLast?_eq_some_getLast _
      obtain ⟨head, hhead, -⟩ := hg.head?_body hb
      have hpasses := (mem_successors_iff_passes hinsns hc hb hlast hhead).mp hedge
      exact ((ih hc (List.mem_of_getLast? hlast)).tail hpasses).trans (hinside hb hhead hi)

end Coherent

/-! ### The graph of the instructions -/

/-- A graph of blocks that is the flow between instructions. -/
structure Reflects (g : FlowGraph) (insns : List Instruction) : Prop where
  cuts : g.Cuts insns
  /-- Edges lead from last to first instructions between which control passes. -/
  mem_successors_iff : ∀ {id id' b b' i j}, g.block? id = some b → g.block? id' = some b' → b.last? = some i →
    b'.body.head? = some j → (id' ∈ g.successors id ↔ Passes insns i j)
  successors_lt : ∀ {id id'}, id' ∈ g.successors id → id' < g.size
  /-- Predecessors are the edges read backwards, each once. -/
  preds_nodup : ∀ {id}, (g.preds id).Nodup
  mem_preds_iff : ∀ {id p}, p ∈ g.preds id ↔ id ∈ g.successors p
  /-- Only a conditional branch has two ordinary successors: where it jumps to, then what stands behind it. -/
  length_succs_le : ∀ {id b}, g.block? id = some b → b.succs.length ≤ 2
  two_succs : ∀ {id b}, g.block? id = some b → b.succs.length = 2 → ∃ i target taken b',
    b.last? = some i ∧ i.isConditional = true ∧ i.target? = some target ∧ g.block? taken = some b' ∧
      b'.start = target ∧ b.succs = [taken, id + 1]
  /-- The first instruction leads to an instruction if and only if the first block leads to its block. -/
  reaches_iff : ∀ {first i id b}, insns.head? = some first → g.block? id = some b → i ∈ b.body →
    (ReflTransGen (Passes insns) first i ↔ ReflTransGen (Along g.successors) 0 id)

end FlowGraph

/-- **Flow.** Whatever the code and whatever further places it is cut at, the graph of its blocks is the flow between
its instructions. -/
theorem withLeaders_reflects (code : List UInt8) (extra : List Nat) :
    (FlowGraph.withLeaders (decode code) extra).Reflects (decode code) where
  cuts := FlowGraph.cuts_withLeaders (coherent_decode code) extra
  mem_successors_iff := by
    intro id id' b b' i j hb hb' hlast hhead
    rw [FlowGraph.successors_of_block? hb]
    exact FlowGraph.mem_successors_iff_passes (coherent_decode code) hb hb' hlast hhead
  successors_lt := fun h => (closed_build (decode code) extra true).successors_lt _ _ h
  preds_nodup := (FlowGraph.preds_build (decode code) extra true _).1
  mem_preds_iff := (FlowGraph.preds_build (decode code) extra true _).2 _
  length_succs_le := fun hb => (FlowGraph.succs_withLeaders (coherent_decode code) hb).1
  two_succs := fun hb => (FlowGraph.succs_withLeaders (coherent_decode code) hb).2
  reaches_iff := by
    intro first i id b hfirst hb hi
    exact ⟨fun hpath => FlowGraph.reaches_block (coherent_decode code) hfirst hpath hb hi,
      fun hpath => FlowGraph.reaches_instruction (coherent_decode code) hfirst hpath hb hi⟩

end JvmLift.Flow
