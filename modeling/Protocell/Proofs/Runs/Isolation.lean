import Mathlib.Data.List.GetD
import Protocell.Proofs.Runs.Calls
import Protocell.Proofs.Runs.Hiding
import Protocell.Proofs.Runs.Requests

/-!
# Proofs/Runs/Isolation — a callee cannot see its caller's values

A machine knows of the stack below its frame only the headers: they lie below a chain of marks that
leads from the active one down to the root frame (`Machine.IsMark`).  Two machines look alike if
they agree in all but the operands between these headers and what lies above the stack pointer
(`Machine.LooksLike`).

That is to say, the frames they hold are the same once the lower ones are hidden.  Since a step does
not look below its frame (`Proofs/Runs/Hiding`), two such machines do the same and ask the same of
their hosts until the frame they are in is left (`runs_alike_above_mark`).
-/

namespace Protocell

/-! ## Headers in the bytes of frames -/

namespace CallSite

variable {k : CallSite} {fs gs : Frames} {d j : ℕ}

/-- What is open in the caller of an open site is open too. -/
theorem IsOpenIn.trans {l : CallSite} (hl : l.IsOpenIn k.caller) (hk : k.IsOpenIn fs) :
    l.IsOpenIn fs := by
  induction fs with
  | root vs => exact hk.elim
  | called caller pc pi vs ih =>
    rcases hk with rfl | hbelow
    · exact .inr hl
    · exact .inr (ih hbelow)

theorem depth_lt (h : k.IsOpenIn fs) : k.caller.depth < fs.depth := by
  induction fs with
  | root vs => exact h.elim
  | called caller pc pi vs ih =>
    rcases h with rfl | hbelow
    · exact Nat.lt_succ_self _
    · exact Nat.lt_succ_of_lt (ih hbelow)

/-- **The header of an open site lies right above its caller's bytes.** -/
theorem getD_bytes (h : k.IsOpenIn fs) (hj : j < 3) :
    fs.bytes.getD (k.caller.size + j) 0 = [k.pc, k.pi, UInt8.ofNat k.caller.start].getD j 0 := by
  have hlt : k.caller.size + j < k.mark := Nat.add_lt_add_left hj _
  rw [List.getD_eq_getElem?_getD, ← List.getElem?_take_of_lt hlt, take_bytes h,
    List.getElem?_append_right (by rw [Frames.length_bytes]; omega), Frames.length_bytes,
    Nat.add_sub_cancel_left, List.getD_eq_getElem?_getD]

/-- A header is no more than three bytes below its mark. -/
theorem toNat_sub {mark n : UInt8} (hmark : mark.toNat = k.mark) (hn : n ≤ 3) :
    (mark - n).toNat = k.mark - n.toNat := by
  have hle : n ≤ mark := by
    rw [UInt8.le_iff_toNat_le, hmark]
    exact Nat.le_trans (UInt8.le_iff_toNat_le.mp hn) (Nat.le_add_left _ _)
  rw [UInt8.toNat_sub_of_le _ _ hle, hmark]

/-- Hiding operands leaves the headers of all sites as and where they are. -/
theorem IsOpenIn.of_hide_eq (hk : k.IsOpenIn fs) (heq : fs.hide d = gs.hide d) :
    ∃ l : CallSite, l.IsOpenIn gs ∧ l.caller.size = k.caller.size ∧
      [l.pc, l.pi, UInt8.ofNat l.caller.start] = [k.pc, k.pi, UInt8.ofNat k.caller.start] := by
  induction fs generalizing gs with
  | root vs => exact hk.elim
  | called caller pc pi vs ih =>
    cases gs with
    | root ws => exact absurd heq Frames.noConfusion
    | called caller' pc' pi' ws =>
      rw [Frames.hide, Frames.hide] at heq
      injection heq with hcaller hpc hpi hvs
      rcases hk with rfl | hbelow
      · refine ⟨⟨caller', pc', pi'⟩, .inl rfl, ?_, ?_⟩
        · change caller'.size = caller.size
          rw [← Frames.size_hide d, ← hcaller, Frames.size_hide]
        · change [pc', pi', UInt8.ofNat caller'.start] = [pc, pi, UInt8.ofNat caller.start]
          rw [← Frames.start_hide d caller', ← hcaller, Frames.start_hide, hpc, hpi]
      · obtain ⟨l, hl, hrest⟩ := ih hbelow hcaller
        exact ⟨l, .inr hl, hrest⟩

end CallSite

namespace Frames

/-- A header says where the call goes on and where its caller starts. -/
theorem eq_of_header_eq {caller caller' : Frames} {pc pi pc' pi' : UInt8} {vs ws : List UInt8}
    (hsize : caller.size = caller'.size) (hlt : caller.size < 256)
    (hheader : ∀ j < 3, (called caller pc pi vs).bytes.getD (caller.size + j) 0 =
      (called caller' pc' pi' ws).bytes.getD (caller.size + j) 0) :
    pc = pc' ∧ pi = pi' ∧ caller.start = caller'.start := by
  have hget (j : ℕ) (hj : j < 3) : [pc, pi, UInt8.ofNat caller.start].getD j 0 =
      [pc', pi', UInt8.ofNat caller'.start].getD j 0 := by
    rw [← getD_bytes_called caller pc pi vs hj, hheader j hj, hsize, getD_bytes_called _ _ _ _ hj]
  have hstart := start_eq_of_ofNat_eq hlt (hsize ▸ hlt) (hget 2 (by decide))
  exact ⟨hget 0 (by decide), hget 1 (by decide), hstart⟩

/-- **Frames are the same, their lower operands hidden, if their headers and last operands are.**
The headers say where the frames start, hence how many operands are hidden in each. -/
theorem hide_eq_of_headers {d : ℕ} {fs gs : Frames} (hd : fs.depth ≤ d)
    (hstart : fs.start = gs.start) (hsize : fs.size = gs.size) (hlt : fs.size < 256)
    (hoperands : fs.depth = d → fs.operands = gs.operands)
    (hheaders : ∀ k : CallSite, k.IsOpenIn fs → ∀ j < 3,
      fs.bytes.getD (k.caller.size + j) 0 = gs.bytes.getD (k.caller.size + j) 0) :
    fs.hide d = gs.hide d := by
  induction fs generalizing gs with
  | root vs =>
    cases gs with
    | root ws =>
      rw [size, size, hstart, Nat.add_left_cancel_iff] at hsize
      change vs.length = ws.length at hsize
      rw [hide, hide, hsize]
      split
      · rfl
      · exact congrArg root (hoperands (Nat.le_antisymm hd (Nat.not_lt.mp ‹_›)))
    | called caller pc pi ws =>
      rw [start, start] at hstart
      omega
  | called caller pc pi vs ih =>
    cases gs with
    | root ws =>
      rw [start, start] at hstart
      omega
    | called caller' pc' pi' ws =>
      have hcallers : caller.size = caller'.size := Nat.add_right_cancel hstart
      rw [size_called] at hlt
      rw [size_called, size_called] at hsize
      obtain ⟨hpc, hpi, hstarts⟩ :=
        eq_of_header_eq hcallers (by omega) (hheaders ⟨caller, pc, pi⟩ (.inl rfl))
      have hcaller : caller.hide d = caller'.hide d := by
        refine ih (Nat.le_of_succ_le hd) hstarts hcallers (by omega) ?_ ?_
        · exact fun hdepth => absurd (hdepth ▸ hd) (Nat.not_succ_le_self _)
        · intro k hk j hj
          have hin : k.caller.size + j < caller'.bytes.length := by
            rw [length_bytes, ← hcallers]
            exact Nat.lt_of_lt_of_le (Nat.add_lt_add_left hj _)
              (Nat.le_trans (CallSite.mark_le_start hk) caller.start_le_size)
          have hopen : k.IsOpenIn (called caller pc pi vs) := .inr hk
          have hsame := hheaders k hopen j hj
          rwa [CallSite.getD_bytes hopen hj, ← CallSite.getD_bytes hk hj, bytes_called _ _ _ ws,
            List.append_assoc, List.getD_append _ _ _ _ hin] at hsame
      have hdepth : caller.depth = caller'.depth := by
        rw [← depth_hide d caller, hcaller, depth_hide]
      have hlength : vs.length = ws.length := by omega
      rw [hide, hide, hcaller, hpc, hpi, hdepth, hlength]
      split
      · rfl
      · refine congrArg (called _ _ _) (hoperands (Nat.le_antisymm hd ?_))
        rw [depth, hdepth]
        exact Nat.not_lt.mp ‹_›

end Frames

/-! ## Machines that look alike -/

namespace Machine

/-- **The marks of the frames that were called**: the active mark, and below each such mark the byte
that says where its caller's frame starts.  The root frame starts at zero and has no header. -/
inductive IsMark (m : Machine) : UInt8 → Prop
  | active : m.sm ≠ 0 → m.IsMark m.sm
  | caller {mark : UInt8} : m.IsMark mark → m.stack.get (mark - 1) ≠ 0 →
    m.IsMark (m.stack.get (mark - 1))

/-- Two machines agree in everything but the bytes of their stacks. -/
structure SameRegisters (m m' : Machine) : Prop where
  pi_eq : m.pi = m'.pi
  pc_eq : m.pc = m'.pc
  sp_eq : m.sp = m'.sp
  sm_eq : m.sm = m'.sm
  flags_eq : m.flags = m'.flags
  sleep_eq : m.sleep = m'.sleep
  memory_eq : m.memory = m'.memory

/-- **Two machines agree in everything but operands of frames below the active one** and bytes that
are not on the stack. -/
structure LooksLike (m m' : Machine) : Prop extends SameRegisters m m' where
  /-- The operands of the active frame. -/
  frame_eq : m.frame = m'.frame
  /-- The header bytes below each mark. -/
  headers_eq : ∀ mark, m.IsMark mark → ∀ i, mark - 3 ≤ i → i < mark →
    m.stack.get i = m'.stack.get i

namespace Holds

variable {m : Machine} {fs : Frames} {k : CallSite}

theorem frame_eq (h : m.Holds fs) : m.frame = fs.operands := by
  rw [Machine.frame, h.live_eq, h.mark_eq, Frames.drop_bytes]

theorem mark_lt (h : m.Holds fs) (hk : k.IsOpenIn fs) : k.mark < 256 :=
  Nat.lt_of_le_of_lt (Nat.le_trans (CallSite.mark_le_start hk) fs.start_le_size) h.size_lt

theorem get_header (h : m.Holds fs) (hk : k.IsOpenIn fs) {i : UInt8} {j : ℕ} (hj : j < 3)
    (hi : i.toNat = k.caller.size + j) : m.stack.get i = fs.bytes.getD (k.caller.size + j) 0 := by
  have hle := Nat.le_trans (CallSite.mark_le_start hk) fs.start_le_size
  rw [CallSite.mark] at hle
  rw [h.get_eq (by omega), hi]

/-- The last header byte of an open site is its caller's mark. -/
theorem get_pred_mark (h : m.Holds fs) (hk : k.IsOpenIn fs) {mark : UInt8}
    (hmark : mark.toNat = k.mark) : (m.stack.get (mark - 1)).toNat = k.caller.start := by
  have hlt := h.mark_lt hk
  have hsize := k.caller.start_le_size
  rw [CallSite.mark] at hlt
  rw [h.get_header hk (by decide) (CallSite.toNat_sub hmark (by decide)),
    CallSite.getD_bytes hk (by decide)]
  exact UInt8.toNat_ofNat_of_lt' (Nat.lt_of_le_of_lt hsize (Nat.lt_of_add_right_lt hlt))

/-- From a mark of frames that the stack begins with all marks below it are found. -/
theorem isMark_below (h : m.Holds fs) {gs : Frames}
    (hgs : ∀ k : CallSite, k.IsOpenIn gs → k.IsOpenIn fs)
    (hstart : ∀ mark : UInt8, mark.toNat = gs.start → mark ≠ 0 → m.IsMark mark)
    (hk : k.IsOpenIn gs) {mark : UInt8} (hmark : mark.toNat = k.mark) : m.IsMark mark := by
  have hpos (k : CallSite) (mark : UInt8) (hmark : mark.toNat = k.mark) : mark ≠ 0 := by
    rintro rfl
    exact absurd hmark.symm (Nat.succ_ne_zero _)
  induction gs with
  | root vs => exact hk.elim
  | called caller pc pi vs ih =>
    rcases hk with rfl | hbelow
    · exact hstart mark hmark (hpos _ _ hmark)
    · refine ih (fun l hl => hgs l (.inr hl)) ?_ hbelow
      intro inner hinner hne
      have hsite : (⟨caller, pc, pi⟩ : CallSite).IsOpenIn fs := hgs _ (.inl rfl)
      have houter : (UInt8.ofNat (caller.size + 3)).toNat = caller.size + 3 :=
        UInt8.toNat_ofNat_of_lt' (h.mark_lt hsite)
      have hget : m.stack.get (UInt8.ofNat (caller.size + 3) - 1) = inner := by
        rw [← UInt8.toNat_inj, hinner]
        exact h.get_pred_mark hsite houter
      rw [← hget] at hne ⊢
      exact .caller (hstart _ houter (hpos ⟨caller, pc, pi⟩ _ houter)) hne

/-- **The marks are those of the open sites.** -/
theorem isMark_iff (h : m.Holds fs) {mark : UInt8} :
    m.IsMark mark ↔ ∃ k : CallSite, k.IsOpenIn fs ∧ mark.toNat = k.mark := by
  have hzero (i : UInt8) : i ≠ 0 ↔ i.toNat ≠ 0 := not_congr UInt8.toNat_inj.symm
  constructor
  · intro hmark
    induction hmark with
    | active hinner =>
      rw [hzero, h.mark_eq] at hinner
      cases fs with
      | root vs => exact absurd rfl hinner
      | called caller pc pi vs => exact ⟨⟨caller, pc, pi⟩, .inl rfl, h.mark_eq⟩
    | caller _ hinner ih =>
      obtain ⟨k, hk, hmark⟩ := ih
      have hget := h.get_pred_mark hk hmark
      rw [hzero, hget] at hinner
      rw [hget]
      rcases hcaller : k.caller with vs | ⟨caller, pc, pi, vs⟩
      · rw [hcaller] at hinner
        exact absurd rfl hinner
      · have hopen : (⟨caller, pc, pi⟩ : CallSite).IsOpenIn k.caller := by
          rw [hcaller]
          exact .inl rfl
        exact ⟨_, hopen.trans hk, rfl⟩
  · rintro ⟨k, hk, hmark⟩
    refine h.isMark_below (fun _ hk => hk) ?_ hk hmark
    intro mark hstart hne
    rw [← h.mark_eq, UInt8.toNat_inj] at hstart
    rw [hstart] at hne ⊢
    exact .active hne

end Holds

variable {m m' : Machine} {f g : FrameMachine} {d : ℕ}

/-- **Machines that look alike hold the same frames**, the lower ones hidden. -/
theorem LooksLike.hide_eq (hlook : m.LooksLike m') (hf : m.Represents f) (hg : m'.Represents g) :
    f.hide f.frames.depth = g.hide f.frames.depth := by
  have hfm := hf.holds
  have hgm := hg.holds
  have hstart : f.frames.start = g.frames.start := by
    rw [← hfm.mark_eq, hlook.sm_eq, hgm.mark_eq]
  have hsize : f.frames.size = g.frames.size := by
    rw [← hfm.sp_eq, hlook.sp_eq, hgm.sp_eq]
  have hoperands : f.frames.operands = g.frames.operands := by
    rw [← hfm.frame_eq, hlook.frame_eq, hgm.frame_eq]
  have hheaders (k : CallSite) (hk : k.IsOpenIn f.frames) (j : ℕ) (hj : j < 3) :
      f.frames.bytes.getD (k.caller.size + j) 0 = g.frames.bytes.getD (k.caller.size + j) 0 := by
    have hlt : k.caller.size + j < k.mark := Nat.add_lt_add_left hj _
    have hmark : (UInt8.ofNat k.mark).toNat = k.mark := UInt8.toNat_ofNat_of_lt' (hfm.mark_lt hk)
    have hi : (UInt8.ofNat (k.caller.size + j)).toNat = k.caller.size + j :=
      UInt8.toNat_ofNat_of_lt' (Nat.lt_trans hlt (hfm.mark_lt hk))
    have hin := Nat.lt_of_lt_of_le hlt
      (Nat.le_trans (CallSite.mark_le_start hk) f.frames.start_le_size)
    have hsame := hlook.headers_eq _ (hfm.isMark_iff.mpr ⟨k, hk, hmark⟩)
      (UInt8.ofNat (k.caller.size + j)) ?_ ?_
    · rwa [hfm.get_eq (hi.symm ▸ hin), hgm.get_eq (hi.symm ▸ hsize ▸ hin), hi] at hsame
    · rw [UInt8.le_iff_toNat_le, CallSite.toNat_sub hmark (by decide), hi]
      exact Nat.le_add_right _ _
    · rwa [UInt8.lt_iff_toNat_lt, hmark, hi]
  have hframes := Frames.hide_eq_of_headers (Nat.le_refl _) hstart hsize hfm.size_lt
    (fun _ => hoperands) hheaders
  rw [FrameMachine.hide, FrameMachine.hide, FrameMachine.mk.injEq]
  exact ⟨by rw [← hf.pi_eq, hlook.pi_eq, hg.pi_eq], by rw [← hf.pc_eq, hlook.pc_eq, hg.pc_eq],
    hframes, by rw [← hf.flags_eq, hlook.flags_eq, hg.flags_eq],
    by rw [← hf.sleep_eq, hlook.sleep_eq, hg.sleep_eq],
    by rw [← hf.memory_eq, hlook.memory_eq, hg.memory_eq]⟩

/-- Machines that hold the same frames, some operands hidden, have the same registers. -/
theorem Represents.sameRegisters (hf : m.Represents f) (hg : m'.Represents g)
    (heq : f.hide d = g.hide d) : m.SameRegisters m' := by
  rw [FrameMachine.hide, FrameMachine.hide, FrameMachine.mk.injEq] at heq
  obtain ⟨hpi, hpc, hframes, hflags, hsleep, hmemory⟩ := heq
  refine ⟨?_, ?_, ?_, ?_, ?_, ?_, ?_⟩
  · rw [hf.pi_eq, hpi, hg.pi_eq]
  · rw [hf.pc_eq, hpc, hg.pc_eq]
  · rw [← UInt8.toNat_inj, hf.holds.sp_eq, hg.holds.sp_eq, ← Frames.size_hide d, hframes,
      Frames.size_hide]
  · rw [← UInt8.toNat_inj, hf.holds.mark_eq, hg.holds.mark_eq, ← Frames.start_hide d, hframes,
      Frames.start_hide]
  · rw [hf.flags_eq, hflags, hg.flags_eq]
  · rw [hf.sleep_eq, hsleep, hg.sleep_eq]
  · rw [hf.memory_eq, hmemory, hg.memory_eq]

/-- **They look alike if the active frame is not hidden.** -/
theorem Represents.looksLike (hf : m.Represents f) (hg : m'.Represents g)
    (heq : f.hide d = g.hide d) (hd : d ≤ f.frames.depth) : m.LooksLike m' := by
  have hsame := hf.sameRegisters hg heq
  have hframes : f.frames.hide d = g.frames.hide d := congrArg FrameMachine.frames heq
  refine ⟨hsame, ?_, ?_⟩
  · have hdepth := congrArg Frames.depth hframes
    rw [Frames.depth_hide, Frames.depth_hide] at hdepth
    rw [hf.holds.frame_eq, hg.holds.frame_eq, ← Frames.operands_hide_of_le hd, hframes,
      Frames.operands_hide_of_le (le_of_le_of_eq hd hdepth)]
  · intro mark hmark i hle hlt
    obtain ⟨k, hk, hkmark⟩ := hf.holds.isMark_iff.mp hmark
    obtain ⟨l, hl, hsize, hheader⟩ := hk.of_hide_eq hframes
    rw [UInt8.le_iff_toNat_le, CallSite.toNat_sub hkmark (by decide)] at hle
    rw [UInt8.lt_iff_toNat_lt, hkmark] at hlt
    obtain ⟨j, hj⟩ : ∃ j, i.toNat = k.caller.size + j := Nat.exists_eq_add_of_le hle
    have hj3 : j < 3 := by
      rw [hj] at hlt
      exact Nat.lt_of_add_lt_add_left hlt
    rw [hf.holds.get_header hk hj3 hj, hg.holds.get_header hl hj3 (hsize.symm ▸ hj),
      CallSite.getD_bytes hk hj3, CallSite.getD_bytes hl hj3, hheader]

end Machine

/-! ## Runs -/

/-- **For as long as no step has ended below the mark, no fewer calls are open.** -/
theorem FrameMachine.Settled.depth_le {p : Processor} {h : Host σ} {c : FrameSystem σ}
    (hc : c.machine.Settled) (n : ℕ)
    (habove : ∀ i ≤ n, c.machine.frames.start ≤ (p.frameAfter h i c).machine.frames.start) :
    c.machine.frames.depth ≤ (p.frameAfter h n c).machine.frames.depth := by
  cases hframes : c.machine.frames with
  | root vs => exact Nat.zero_le _
  | called caller pc pi vs =>
    let k : CallSite := ⟨caller, pc, pi⟩
    have hstart : c.machine.frames.start = k.mark := by rw [hframes]; rfl
    have hopen : k.IsOpenIn c.machine.frames := by
      rw [hframes]
      exact .inl rfl
    have hwhere := CallSite.open_or_left_frameAfter (p := p) (h := h) hc hopen n fun i hi => by
      rw [← hstart]
      exact habove i (Nat.le_of_lt hi)
    rcases hwhere with hopen | hleft
    · exact CallSite.depth_lt hopen
    · have hlt := CallSite.start_lt_of_left (hc.after p h n) hleft
      rw [← hstart] at hlt
      exact absurd (habove n (Nat.le_refl n)) (Nat.not_le.mpr hlt)

/-- **Machines that look alike do the same** until the frame they are in is left. -/
theorem Machine.LooksLike.run {m m' : Machine} {f g : FrameMachine} (hlook : m.LooksLike m')
    (hf : m.Represents f) (hg : m'.Represents g) (hsettled : f.Settled) (p : Processor) (h : Host σ)
    (s : σ) (n : ℕ) (habove : ∀ i < n, m.sm ≤ (p.after h i ⟨m, s⟩).machine.sm) :
    p.results h n ⟨m, s⟩ = p.results h n ⟨m', s⟩ ∧
      (p.after h n ⟨m, s⟩).host = (p.after h n ⟨m', s⟩).host ∧
      (p.after h n ⟨m, s⟩).machine.SameRegisters (p.after h n ⟨m', s⟩).machine ∧
      (m.sm ≤ (p.after h n ⟨m, s⟩).machine.sm →
        (p.after h n ⟨m, s⟩).machine.LooksLike (p.after h n ⟨m', s⟩).machine) := by
  have hm : System.Represents ⟨m, s⟩ ⟨f, s⟩ := ⟨hf, rfl⟩
  have hm' : System.Represents ⟨m', s⟩ ⟨g, s⟩ := ⟨hg, rfl⟩
  have hdeep (k : ℕ) (hk : ∀ i ≤ k, m.sm ≤ (p.after h i ⟨m, s⟩).machine.sm) :
      f.frames.depth ≤ (p.frameAfter h k ⟨f, s⟩).machine.frames.depth := by
    refine FrameMachine.Settled.depth_le (c := ⟨f, s⟩) hsettled k fun i hi => ?_
    rw [← (hm.after p h i).machine.holds.mark_eq, ← hf.holds.mark_eq]
    exact UInt8.le_iff_toNat_le.mp (hk i hi)
  have hbegin : FrameSystem.hide f.frames.depth ⟨f, s⟩ = FrameSystem.hide f.frames.depth ⟨g, s⟩ :=
    congrArg (FrameSystem.mk · s) (hlook.hide_eq hf hg)
  have hhide (k : ℕ) (hk : k ≤ n) : (p.frameAfter h k ⟨f, s⟩).hide f.frames.depth =
      (p.frameAfter h k ⟨g, s⟩).hide f.frames.depth :=
    Processor.hide_frameAfter hbegin k fun i hi =>
      hdeep i fun l hl => habove l (Nat.lt_of_le_of_lt hl (Nat.lt_of_lt_of_le hi hk))
  have hend := hhide n (Nat.le_refl n)
  have hmachine := congrArg FrameSystem.machine hend
  have hhost := congrArg FrameSystem.host hend
  refine ⟨?_, ?_, ?_, ?_⟩
  · refine Processor.results_congr fun k hk => ?_
    have hstep := Processor.frameStep_of_hide_eq (p := p) (h := h) (hhide k (Nat.le_of_lt hk))
      (hdeep k fun i hi => habove i (Nat.lt_of_le_of_lt hi hk))
    rw [((hm.after p h k).step p h).1, ((hm'.after p h k).step p h).1]
    exact hstep.1
  · rw [(hm.after p h n).host_eq, (hm'.after p h n).host_eq]
    exact hhost
  · exact (hm.after p h n).machine.sameRegisters (hm'.after p h n).machine hmachine
  · intro hlast
    refine (hm.after p h n).machine.looksLike (hm'.after p h n).machine hmachine (hdeep n ?_)
    intro i hi
    rcases Nat.eq_or_lt_of_le hi with rfl | hlt
    · exact hlast
    · exact habove i hlt

/-- **A callee cannot see its caller's values.**  Let two machines, each reached by some run, agree
in everything but operands of frames below the active one and bytes above the stack pointer.  For as
long as the frame that they are in has not been left, steps against the same host have the same
results, make the same requests and leave host and registers in the same state; and until then the
machines go on looking alike, so that the active frame holds the same operands. -/
theorem runs_alike_above_mark (p : Processor) {τ₁ : Type v} {τ₂ : Type w} (h₁ : Host τ₁)
    (h₂ : Host τ₂) (program₁ program₂ : Program) (t₁ : τ₁) (t₂ : τ₂) (k₁ k₂ : ℕ) (h : Host σ)
    (s : σ) (n : ℕ) :
    let m₁ := (p.after h₁ k₁ ⟨.load program₁, t₁⟩).machine
    let m₂ := (p.after h₂ k₂ ⟨.load program₂, t₂⟩).machine
    m₁.LooksLike m₂ → (∀ i < n, m₁.sm ≤ (p.after h i ⟨m₁, s⟩).machine.sm) →
      p.results h n ⟨m₁, s⟩ = p.results h n ⟨m₂, s⟩ ∧
      p.requests h n ⟨m₁, s⟩ = p.requests h n ⟨m₂, s⟩ ∧
      (p.after h n ⟨m₁, s⟩).host = (p.after h n ⟨m₂, s⟩).host ∧
      (p.after h n ⟨m₁, s⟩).machine.SameRegisters (p.after h n ⟨m₂, s⟩).machine ∧
      (m₁.sm ≤ (p.after h n ⟨m₁, s⟩).machine.sm →
        (p.after h n ⟨m₁, s⟩).machine.LooksLike (p.after h n ⟨m₂, s⟩).machine) := by
  intro m₁ m₂ hlook habove
  have hm₁ := (System.represents_run p h₁ program₁ t₁ k₁).machine
  have hm₂ := (System.represents_run p h₂ program₂ t₂ k₂).machine
  have hsettled := (FrameMachine.settled_load program₁).after (c := ⟨_, t₁⟩) p h₁ k₁
  obtain ⟨hresults, hrest⟩ := hlook.run hm₁ hm₂ hsettled p h s n habove
  refine ⟨hresults, ?_, hrest⟩
  -- The requests are the state of a host that records them.
  have hrecorded (i : ℕ) :
      (p.after h.recorded i ⟨m₁, (s, [])⟩).machine = (p.after h i ⟨m₁, s⟩).machine :=
    congrArg System.machine (p.after_recorded h i ⟨m₁, (s, [])⟩)
  have hrun := hlook.run hm₁ hm₂ hsettled p h.recorded (s, []) n fun i hi => by
    rw [hrecorded]
    exact habove i hi
  exact congrArg Prod.snd hrun.2.1

/-- A callee that drops what is not its own and copies what lies below the energy it has read:
called with one or with two on its caller's stack, it reads and copies the same. -/
theorem callee_alike_above_two_operands :
    ∃ program, assemble .standard
        ".prg 0\n:top\nINC\nCALL 1\nJUMP @top\n.prg 1\nPOP\nECHK\nCOPY 1\nRTN\n" = .ok program ∧
      let p : Processor := ⟨.standard, true⟩
      let run (k : ℕ) : Machine := (p.after .bare k ⟨.load program, 0⟩).machine
      (run 2).live = [1, 3, 0, 0] ∧ (run 9).live = [2, 3, 0, 0] ∧
        p.results .bare 4 ⟨run 2, 7⟩ = p.results .bare 4 ⟨run 9, 7⟩ ∧
        p.requests .bare 4 ⟨run 2, 7⟩ = p.requests .bare 4 ⟨run 9, 7⟩ := by
  let p : Processor := ⟨.standard, true⟩
  let run (program : Program) (k : ℕ) : Machine := (p.after .bare k ⟨.load program, 0⟩).machine
  let frames (program : Program) (k : ℕ) : FrameMachine :=
    (p.frameAfter .bare k ⟨.load program, 0⟩).machine
  let view (m : FrameMachine) := (m.pi, m.pc, m.frames.hide 1, m.flags, m.sleep)
  let storesNothing : Step → Bool
    | .executed o _ => o != .lsto && o != .rsto
    | _ => true
  have hrun : (assemble .standard
      ".prg 0\n:top\nINC\nCALL 1\nJUMP @top\n.prg 1\nPOP\nECHK\nCOPY 1\nRTN\n").toOption.map
      (fun program => (((run program 2).live, (run program 9).live),
        (decide (view (frames program 2) = view (frames program 9)),
          (frames program 2).frames.depth),
        (p.results .bare 9 ⟨.load program, 0⟩).all storesNothing,
        (List.range 4).all fun i =>
          (run program 2).sm ≤ (p.after .bare i ⟨run program 2, 7⟩).machine.sm))
      = some (([1, 3, 0, 0], [2, 3, 0, 0]), (true, 1), true, true) := by decide +kernel
  obtain ⟨program, hassemble, hrun⟩ := Option.map_eq_some_iff.mp hrun
  simp only [Prod.mk.injEq, decide_eq_true_eq] at hrun
  obtain ⟨⟨hone, htwo⟩, ⟨hview, hdepth⟩, hstore, hmarks⟩ := hrun
  have hmemory (k : ℕ) (hk : k ≤ 9) : (frames program k).memory = .ofProgram program := by
    refine Processor.memory_of_run p .bare program 0 hk fun o b hexecuted => ?_
    simpa [storesNothing] using List.all_eq_true.mp hstore _ hexecuted
  have hhide : (frames program 2).hide 1 = (frames program 9).hide 1 := by
    simp only [view, Prod.mk.injEq] at hview
    rw [FrameMachine.hide, FrameMachine.hide, FrameMachine.mk.injEq, hmemory 2 (by decide),
      hmemory 9 (by decide)]
    simp only [hview, and_self]
  have hrun (k : ℕ) := (System.represents_run p .bare program 0 k).machine
  have hlook : (run program 2).LooksLike (run program 9) :=
    (hrun 2).looksLike (hrun 9) hhide (Nat.le_of_eq hdepth.symm)
  have habove (i : ℕ) (hi : i < 4) :
      (run program 2).sm ≤ (p.after .bare i ⟨run program 2, 7⟩).machine.sm :=
    of_decide_eq_true (List.all_eq_true.mp hmarks i (List.mem_range.mpr hi))
  have halike := runs_alike_above_mark p .bare .bare program program 0 0 2 9 .bare 7 4 hlook habove
  exact ⟨program, toOption_eq_some_iff.mp hassemble, hone, htwo, halike.1, halike.2.1⟩

end Protocell
