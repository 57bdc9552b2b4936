import Classwright.Proofs.Assembly.Assembled
import Classwright.Proofs.Assembly.Printed
import Classwright.Proofs.ClassFile.Accepted
import Classwright.Proofs.Machine.Compiled

/-!
# Listings of code

Assembling undoes listing (`Code.assemble_listing`): the listing of code is accepted if and only if
the code is relistable (`Code.Relistable`), and then it yields the bytes of the code again.  The code
of an accepted program is relistable.
-/

namespace Classwright

namespace Listing

/-! ### Listings -/

variable {code : Code}

theorem encodable_of_mem_locate (h : ∀ i ∈ code, i.Encodable) :
    ∀ x ∈ Code.locate 0 code, x.2.Encodable := by
  rintro ⟨pc, i⟩ hx
  obtain ⟨pre, post, rfl, -⟩ := Code.mem_locate.1 hx
  exact h i (List.mem_append_right _ List.mem_cons_self)

/-- The lines of a listing. -/
theorem lines_listing (h : ∀ i ∈ code, i.Encodable) :
    (Text.ofString code.listing).lines = (Code.locate 0 code).map lineOf ++ [[]] := by
  have htext : Text.ofString code.listing = (Code.locate 0 code).flatMap lineOf := by
    rw [Code.listing, ofString_join, List.flatMap_map]
    congr 1
    funext x
    rw [Text.ofString_append, Instruction.ofString_text]
    rfl
  have hencodable := encodable_of_mem_locate h
  rw [htext]
  generalize Code.locate 0 code = located at hencodable
  induction located with
  | nil => rfl
  | cons x located ih =>
    rw [List.forall_mem_cons] at hencodable
    have hfeed : (0x0A : UInt8) ∉ Text.spaced (x.2.words x.1) :=
      fun hmem => (mem_lineOf hencodable.1.isListed hmem).1 rfl
    rw [List.flatMap_cons, lineOf, List.append_assoc, List.singleton_append,
      Text.lines_append_lineFeed hfeed, ih hencodable.2]
    rfl

theorem instructionLines_listing (h : ∀ i ∈ code, i.Encodable) :
    instructionLines (Text.ofString code.listing).lines = (Code.locate 0 code).map lineOf := by
  have hlast : holdsInstruction [] = false := holdsInstruction_of_blank content_nil
  have hlines : ∀ line ∈ (Code.locate 0 code).map lineOf, holdsInstruction line = true := by
    intro line hline
    obtain ⟨⟨pc, i⟩, hx, rfl⟩ := List.mem_map.1 hline
    exact holdsInstruction_lineOf (encodable_of_mem_locate h _ hx).isListed
  rw [instructionLines, lines_listing h, List.filter_append, List.filter_eq_self.2 hlines]
  simp [hlast]

end Listing

namespace Assembler

open Listing

variable {code : Code} {a : Assembler}

/-- The commands for the instructions of a listing. -/
theorem Collected.relisted (hcode : ∀ i ∈ code, i.Encodable)
    (h : Collected (Text.ofString code.listing).lines a) :
    List.Forall₂ (fun x c => Relistable x.2 x.1 ∧ (c.instruction, c.target) = relisted x.2 x.1)
      (Code.locate 0 code) a.commands.toList := by
  have hcommands := h.commands
  rw [instructionLines_listing hcode, List.forall₂_map_left_iff] at hcommands
  have hboth := (List.forall₂_and_left _ _).2 ⟨encodable_of_mem_locate hcode, hcommands⟩
  exact hboth.imp fun x c hx => (readItem_lineOf hx.1).1 hx.2

theorem Collected.size_relisted (hcode : ∀ i ∈ code, i.Encodable)
    (h : Collected (Text.ofString code.listing).lines a) :
    (Command.code a.commands.toList).map Instruction.size = code.map Instruction.size := by
  have hsize (i : Instruction) (pc : Nat) : (Listing.relisted i pc).1.size = i.size := by
    unfold Listing.relisted
    split <;> rfl
  rw [← Code.map_snd_locate 0 code, Command.code, List.map_map, List.map_map]
  refine map_eq_of_forall₂ (h.relisted hcode) fun x c hc => ?_
  rw [Function.comp_apply, Function.comp_apply, ← hsize x.2 x.1, ← hc.2]

/-- The command for an instruction of a listing. -/
theorem Collected.exists_command (hcode : ∀ i ∈ code, i.Encodable)
    (h : Collected (Text.ofString code.listing).lines a) {pre post : Code} {i : Instruction}
    (hsplit : code = pre ++ i :: post) : ∃ c, a.commands.toList[pre.length]? = some c ∧
      Relistable i pre.size ∧ (c.instruction, c.target) = Listing.relisted i pre.size ∧
      c.pc = pre.size := by
  have hat : (Code.locate 0 code)[pre.length]? = some (pre.size, i) := by
    rw [hsplit, Code.getElem?_locate, Nat.zero_add]
  obtain ⟨c, hc, hlistable, hrelisted⟩ := forall₂_getElem? (h.relisted hcode) hat
  refine ⟨c, hc, hlistable, hrelisted, ?_⟩
  rw [h.starts _ c hc, Code.size_take_congr (h.size_relisted hcode), hsplit, List.take_left]

/-- A branch that is resolved has its distance again. -/
theorem instruction_of_resolveCommand {starts : Std.HashSet Nat} {c c' : Command}
    {i : Instruction} (hlistable : Relistable i c.pc)
    (hrelisted : (c.instruction, c.target) = Listing.relisted i c.pc)
    (h : a.resolveCommand starts c = .ok c') :
    c'.instruction = i ∧ (i.op.isBranch = true →
      ∃ n, n ∈ starts ∧ i.target c.pc = (n : Int) ∧ n ≤ 0xFFFF) := by
  unfold Listing.relisted at hrelisted
  split at hrelisted
  · rename_i hk
    obtain ⟨hlow, hhigh⟩ := hlistable.target_range hk
    obtain ⟨hi, htarget⟩ := Prod.mk.inj hrelisted
    rcases resolveCommand_eq_ok.1 h with ⟨hnone, -⟩ | ⟨target, pc, hsome, hpc, hstart, -, rfl⟩
    · rw [htarget] at hnone
      cases hnone
    · obtain rfl := Option.some.inj (htarget.symm.trans hsome)
      obtain rfl := Except.ok.inj hpc
      have hdistance : ((i.target c.pc).toNat : Int) - c.pc = i.operand := by
        rw [Int.toNat_of_nonneg hlow, Instruction.target]
        omega
      refine ⟨?_, fun _ => ⟨_, hstart, (Int.toNat_of_nonneg hlow).symm, by omega⟩⟩
      simp only [hi, hdistance]
  · rename_i hk
    obtain ⟨hi, htarget⟩ := Prod.mk.inj hrelisted
    rcases resolveCommand_eq_ok.1 h with ⟨-, rfl⟩ | ⟨target, pc, hsome, -⟩
    · refine ⟨hi, fun hbranch => ?_⟩
      exact absurd (beq_iff_eq.1 hbranch) hk
    · rw [htarget] at hsome
      cases hsome

end Assembler

/-- The code that can be assembled from its listing: no pool index is 0, and branches go to
instructions that start at a pc of two bytes. -/
structure Code.Relistable (code : Code) : Prop where
  /-- No pool index is 0. -/
  index_ne : ∀ i ∈ code, i.op.operand = .poolByte ∨ i.op.operand = .poolShort → i.operand ≠ 0
  /-- Branches go to instructions. -/
  branch : ∀ (pre : Code) (i : Instruction) (post : Code), code = pre ++ i :: post →
    i.op.isBranch = true → ∃ (pre' : Code) (j : Instruction) (post' : Code),
      code = pre' ++ j :: post' ∧ i.target pre.size = pre'.size ∧ pre'.size ≤ 0xFFFF

namespace Assembler

open Listing

variable {code : Code} {a : Assembler}

theorem Collected.relistable (hcode : ∀ i ∈ code, i.Encodable)
    (h : Collected (Text.ofString code.listing).lines a) {commands : List Command}
    (hresolve : a.resolve = .ok commands) : code.Relistable ∧ Command.code commands = code := by
  have hpairs := mapM_eq_ok.1 hresolve
  -- the command of each instruction, and what resolving it has checked
  have hat {pre post : Code} {i : Instruction} (hsplit : code = pre ++ i :: post) :
      ∃ c', commands[pre.length]? = some c' ∧ c'.instruction = i ∧ Relistable i pre.size ∧
        (i.op.isBranch = true → ∃ n, n ∈ Std.HashSet.ofList (a.commands.toList.map Command.pc) ∧
          i.target pre.size = (n : Int) ∧ n ≤ 0xFFFF) := by
    obtain ⟨c, hc, hlistable, hrelisted, hpc⟩ := h.exists_command hcode hsplit
    obtain ⟨c', hc', hresolved⟩ := forall₂_getElem? hpairs hc
    rw [← hpc] at hlistable hrelisted ⊢
    obtain ⟨hi, hbranch⟩ := instruction_of_resolveCommand hlistable hrelisted hresolved
    exact ⟨c', hc', hi, hlistable, hbranch⟩
  have hlength : commands.length = code.length := by
    rw [← hpairs.length_eq, ← (h.relisted hcode).length_eq, Code.length_locate]
  refine ⟨⟨fun i hi => ?_, fun pre i post hsplit hbranch => ?_⟩, ?_⟩
  · obtain ⟨pre, post, hsplit⟩ := List.append_of_mem hi
    obtain ⟨c', -, -, hlistable, -⟩ := hat hsplit
    exact hlistable.index_ne
  · obtain ⟨c', -, -, -, htarget⟩ := hat hsplit
    obtain ⟨n, hstart, hn, hle⟩ := htarget hbranch
    -- a target is the start of a command, and so that of an instruction
    obtain ⟨k, hk, rfl⟩ := h.exists_of_mem_starts hstart
    rw [Code.size_take_congr (h.size_relisted hcode)] at hn hle
    rw [hpairs.length_eq, hlength] at hk
    obtain ⟨pre', j, post', hsplit', rfl⟩ := Code.exists_split hk
    rw [hsplit', List.take_left] at hn hle
    exact ⟨pre', j, post', hsplit', hn, hle⟩
  · refine List.ext_getElem? fun k => ?_
    rw [Command.code, List.getElem?_map]
    by_cases hk : k < code.length
    · obtain ⟨pre, i, post, hsplit, rfl⟩ := Code.exists_split hk
      obtain ⟨c', hc', hi, -⟩ := hat hsplit
      rw [hc', Option.map_some, hi, hsplit]
      simp
    · rw [List.getElem?_eq_none (by omega), List.getElem?_eq_none (by omega), Option.map_none]

theorem fitsBranch_operand {i : Instruction} (h : i.Encodable) (hk : i.op.operand = .branch) :
    fitsBranch i.operand = true := by
  cases h with
  | short _ hlo hhi => simp [fitsBranch, hlo, hhi]
  | none _ hk' => simp [hk'] at hk
  | byte hk' => simp [hk'] at hk
  | index hk' => rcases hk' with hk' | hk' <;> simp [hk'] at hk
  | longIndex hk' => simp [hk'] at hk
  | wide hop => rcases hop with rfl | rfl <;> simp [Opcode.operand] at hk

/-- The branches of relistable code can be resolved. -/
theorem Collected.exists_resolve (hcode : ∀ i ∈ code, i.Encodable)
    (h : Collected (Text.ofString code.listing).lines a) (hrelistable : code.Relistable) :
    ∃ commands, a.resolve = .ok commands := by
  cases hresolve : a.resolve with
  | ok commands => exact ⟨commands, rfl⟩
  | error e =>
    obtain ⟨c, hc, herror⟩ := exists_of_mapM_eq_error hresolve
    obtain ⟨k, hk⟩ := List.getElem?_of_mem hc
    have hlt := (List.getElem?_eq_some_iff.1 hk).1
    rw [← (h.relisted hcode).length_eq, Code.length_locate] at hlt
    -- a command that cannot be resolved is that of an instruction
    obtain ⟨pre, i, post, hsplit, rfl⟩ := Code.exists_split hlt
    obtain ⟨c', hc', -, hrelisted, hpc⟩ := h.exists_command hcode hsplit
    obtain rfl := Option.some.inj (hc'.symm.trans hk)
    have hi : i.Encodable := hcode i (hsplit ▸ List.mem_append_right _ List.mem_cons_self)
    unfold Listing.relisted at hrelisted
    split at hrelisted
    · rename_i hbranch
      obtain ⟨-, htarget⟩ := Prod.mk.inj hrelisted
      obtain ⟨pre', j, post', hsplit', hgoes, -⟩ :=
        hrelistable.branch pre i post hsplit (beq_iff_eq.2 hbranch)
      obtain ⟨c'', hc'', -, -, hpc''⟩ := h.exists_command hcode hsplit'
      -- a branch of relistable code goes to the start of a command, not too far away
      have hstart : pre'.size ∈ Std.HashSet.ofList (a.commands.toList.map Command.pc) := by
        rw [Std.HashSet.mem_ofList, List.contains_iff_mem, ← hpc'']
        exact List.mem_map_of_mem (List.mem_of_getElem? hc'')
      have hdistance : (pre'.size : Int) - c'.pc = i.operand := by
        rw [hpc, ← hgoes, Instruction.target]
        omega
      rw [hgoes, Int.toNat_natCast] at htarget
      rw [resolveCommand_eq_ok.2 (Or.inr ⟨_, _, htarget, rfl, hstart,
        hdistance ▸ fitsBranch_operand hi hbranch, rfl⟩)] at herror
      cases herror
    · obtain ⟨-, htarget⟩ := Prod.mk.inj hrelisted
      rw [resolveCommand_eq_ok.2 (Or.inl ⟨htarget, rfl⟩)] at herror
      cases herror

/-- The lines of relistable code are read. -/
theorem exists_collected (hcode : ∀ i ∈ code, i.Encodable) (h : code.Relistable) :
    ∃ a, ({} : Assembler).readLines (Text.ofString code.listing).lines = (a, none) := by
  refine exists_readLines (fun line hline => ?_) {}
  rw [lines_listing hcode, List.mem_append, List.mem_singleton] at hline
  rcases hline with hline | rfl
  · obtain ⟨⟨pc, i⟩, hx, rfl⟩ := List.mem_map.1 hline
    obtain ⟨pre, post, hsplit, hpc⟩ := Code.mem_locate.1 hx
    rw [Nat.zero_add] at hpc
    have hlistable : Relistable i pc := by
      refine ⟨h.index_ne i (hsplit ▸ List.mem_append_right _ List.mem_cons_self), fun hk => ?_⟩
      obtain ⟨pre', j, post', -, hgoes, hle⟩ := h.branch pre i post hsplit (beq_iff_eq.2 hk)
      rw [hpc, hgoes]
      omega
    exact ⟨_, (readItem_lineOf (encodable_of_mem_locate hcode _ hx)).2 ⟨hlistable, rfl⟩,
      fun name hname => by cases hname⟩
  · exact ⟨_, readItem_eq_blank.2 content_nil, fun name hname => by cases hname⟩

end Assembler

/-- Assembling the listing of code yields the bytes of the code, if and only if the code is
relistable. -/
theorem Code.assemble_eq_ok {code : Code} (hcode : ∀ i ∈ code, i.Encodable) {bytes : List UInt8} :
    assemble (Text.ofString code.listing) = .ok bytes ↔ code.Relistable ∧ bytes = code.encode := by
  rw [assemble, bind_eq_ok]
  constructor
  · rintro ⟨commands, hread, hbytes⟩
    obtain ⟨a, hlines, hresolve⟩ := Assembler.read_eq_ok.1 hread
    have hcollected := Assembler.collected_of_readLines Assembler.collected_nil hlines
    obtain ⟨hrelistable, heq⟩ := hcollected.relistable hcode hresolve
    exact ⟨hrelistable, by rw [← pure_eq_ok.1 hbytes, heq]⟩
  · rintro ⟨hrelistable, rfl⟩
    obtain ⟨a, hlines⟩ := Assembler.exists_collected hcode hrelistable
    have hcollected := Assembler.collected_of_readLines Assembler.collected_nil hlines
    obtain ⟨commands, hresolve⟩ := hcollected.exists_resolve hcode hrelistable
    obtain ⟨-, heq⟩ := hcollected.relistable hcode hresolve
    exact ⟨commands, Assembler.read_eq_ok.2 ⟨a, hlines, hresolve⟩, by rw [heq]; rfl⟩

/-! ### Code of class files -/

/-- Accepted code of at most 65535 bytes is relistable. -/
theorem ClassFile.Accepts.relistable {f : ClassFile} {code : Code} (h : f.Accepts code)
    (hsize : code.size ≤ 0xFFFF) : code.Relistable := by
  refine ⟨fun i hi hk => ?_, fun pre i post hsplit hbranch => ?_⟩
  · obtain ⟨tag, htag⟩ : ∃ tag, i.op.poolTag? = some tag := by
      cases hop : i.op <;> simp [hop, Opcode.operand] at hk <;> exact ⟨_, rfl⟩
    obtain ⟨index, c, hindex, -, hne, -⟩ := h.tag i hi tag htag
    intro hzero
    rw [hzero] at hindex
    exact hne (UInt16.toNat.inj (Int.ofNat_inj.1 hindex.symm))
  · obtain ⟨pre', j, post', hsplit', hgoes⟩ := h.branch pre i post hsplit hbranch
    refine ⟨pre', j, post', hsplit', hgoes, ?_⟩
    rw [hsplit', Code.size_append] at hsize
    omega

/-- The code of a method of an accepted program is assembled from its listing. -/
theorem Program.Emitted.assemble_method {p : Program} {pool : PoolBuilder} {f : ClassFile}
    (hp : p.Checked) (hslots : p.SlotsFit) (hf : p.Emitted pool f) {m : Member}
    (hm : m ∈ f.methods) : ∃ body code, f.methodCode m = .ok body ∧
      Code.decode body.code = .ok code ∧
      assemble (Text.ofString code.listing) = .ok body.code := by
  obtain ⟨-, -, -, -, -, hmethods⟩ := ClassFile.verify_eq_ok.1 (hf.verify_eq_ok hp hslots)
  obtain ⟨-, body, hbody, hverify⟩ := ClassFile.verifyMethod_eq_ok.1 (hmethods m hm)
  obtain ⟨code, hcode, haccepts⟩ := ClassFile.accepts_of_verifyCode hverify
  refine ⟨body, code, hbody, hcode, ?_⟩
  have hbytes := Code.encode_of_decode hcode
  have hlength : body.code.length ≤ 0xFFFF := by
    obtain ⟨name, descriptor, body', hmethod, hlength⟩ := hf.exists_methodOf hp hslots hm
    rw [← hf.pool_eq] at hmethod
    rw [ClassFile.methodCode_of_methodOf hmethod (by omega)] at hbody
    rwa [← Except.ok.inj hbody]
  have hsize : code.size ≤ 0xFFFF := by
    rwa [← Code.length_encode haccepts.encodable, hbytes]
  exact (Code.assemble_eq_ok haccepts.encodable).2 ⟨haccepts.relistable hsize, hbytes.symm⟩

/-- **Assembling undoes listing**: the listing of code is accepted if and only if no pool index is 0
and branches go to instructions that start at a pc of two bytes, and then it yields the bytes the
code was read from.  The code of every method of an accepted program is of this kind. -/
theorem Code.assemble_listing :
    (∀ bytes code, Code.decode bytes = .ok code →
      ((∃ result, assemble (Text.ofString code.listing) = .ok result) ↔ code.Relistable) ∧
      ∀ result, assemble (Text.ofString code.listing) = .ok result → result = bytes) ∧
    ∀ text p f, (Build.ofText text).result = .ok (p, f) → p.SlotsFit → ∀ m ∈ f.methods,
      ∃ body code, f.methodCode m = .ok body ∧ Code.decode body.code = .ok code ∧
        assemble (Text.ofString code.listing) = .ok body.code := by
  refine ⟨fun bytes code hcode => ?_, fun text p f h hslots m hm => ?_⟩
  · have hencodable := Code.encodable_of_decode hcode
    have hbytes := Code.encode_of_decode hcode
    refine ⟨⟨?_, fun h => ⟨_, (assemble_eq_ok hencodable).2 ⟨h, rfl⟩⟩⟩, fun result h => ?_⟩
    · rintro ⟨result, h⟩
      exact ((assemble_eq_ok hencodable).1 h).1
    · rw [((assemble_eq_ok hencodable).1 h).2, hbytes]
  · obtain ⟨hp, hfile⟩ := Build.checked h
    obtain ⟨pool, hf⟩ := Program.emitted_of_classFile hp.wellFormed hfile
    exact hf.assemble_method hp hslots hm

/-- A listing with the pool index 0 is not accepted, and those of a program are. -/
theorem Code.assemble_listing_factorial :
    (Code.decode [0x12, 0x00] = .ok [{ op := .ldc }] ∧
      ¬ ∃ result, assemble (Text.ofString (Code.listing [{ op := .ldc }])) = .ok result) ∧
    ∃ p f, (Build.ofText factorialSource).result = .ok (p, f) ∧ p.SlotsFit ∧
      ∃ m ∈ f.methods, ∃ body code, f.methodCode m = .ok body ∧
        Code.decode body.code = .ok code ∧
        assemble (Text.ofString code.listing) = .ok body.code := by
  obtain ⟨hlistings, hbuilds⟩ := Code.assemble_listing
  have hdecode : Code.decode [0x12, 0x00] = .ok [{ op := .ldc }] := by decide +kernel
  refine ⟨⟨hdecode, fun h => ?_⟩, ?_⟩
  · have hrelistable := (hlistings _ _ hdecode).1.1 h
    exact hrelistable.index_ne { op := .ldc } List.mem_cons_self (Or.inl rfl) rfl
  · obtain ⟨p, f, h, hslots, -⟩ := factorialSource_builds
    obtain ⟨hp, hfile⟩ := Build.checked h
    obtain ⟨pool, hf⟩ := Program.emitted_of_classFile hp.wellFormed hfile
    obtain ⟨methods, constructor, hmethods, -⟩ := hf.methods
    have hm : constructor ∈ f.methods := by
      rw [hmethods]
      exact List.mem_append_right _ List.mem_cons_self
    exact ⟨p, f, h, hslots, constructor, hm, hbuilds _ p f h hslots constructor hm⟩

end Classwright
