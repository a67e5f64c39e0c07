import TxnStore.Log.Scan
import TxnStore.Proofs.Log.Encoding

/-!
# Contents of a log

A log that holds frames has on its device its header and behind it the encodings of the frames, one
after the other. A scan up to the end of these bytes gives the frames back, and it does so whatever
lies behind them. A scan does not look at the spare fields of the frames, and it admits frames whose
numbers begin later than the header says (`Frame.Chained`).
-/

namespace TxnStore

open TxnStore.Action

/-! ## Frames in order -/

/-- Frames that a log may hold: numbered one after the other from `start`, with room for one more
number, and none too long. -/
structure IsSequence (start : Lsn) (frames : List Frame) : Prop where
  lsn : ∀ {i f}, frames[i]? = some f → f.lsn.val.toNat = start.val.toNat + i
  bounded : start.val.toNat + frames.length < UInt64.size
  short : ∀ {f}, f ∈ frames → f.payload.length < UInt32.size

namespace IsSequence

variable {start : Lsn} {frames rest : List Frame} {f : Frame}

theorem nil (start : Lsn) : IsSequence start [] := by
  refine ⟨by simp, ?_, by simp⟩
  have hlt : start.val.toNat < UInt64.size := start.val.toNat_lt
  simpa using hlt

theorem toNat_next {l : Lsn} (h : l.val.toNat + 1 < UInt64.size) :
    l.next.val.toNat = l.val.toNat + 1 := by
  rw [Lsn.next, UInt64.toNat_add]
  exact Nat.mod_eq_of_lt h

theorem head (h : IsSequence start (f :: rest)) : f.lsn = start := by
  have hlsn : f.lsn.val.toNat = start.val.toNat := h.lsn (i := 0) rfl
  have hval : f.lsn.val = start.val := UInt64.toNat_inj.mp hlsn
  cases hf : f.lsn
  cases start
  simpa [hf] using hval

theorem tail (h : IsSequence start (f :: rest)) : IsSequence start.next rest := by
  have hbounded := h.bounded
  rw [List.length_cons] at hbounded
  have hnext : start.next.val.toNat = start.val.toNat + 1 := toNat_next (by omega)
  refine ⟨?_, by omega, fun hf => h.short (List.mem_cons_of_mem _ hf)⟩
  intro i g hg
  have hlsn := h.lsn (i := i + 1) hg
  omega

/-- One more frame, with the number that comes next. -/
theorem concat (h : IsSequence start frames)
    (hlsn : f.lsn.val.toNat = start.val.toNat + frames.length)
    (hbounded : f.lsn.val.toNat + 1 < UInt64.size) (hshort : f.payload.length < UInt32.size) :
    IsSequence start (frames ++ [f]) := by
  refine ⟨?_, ?_, ?_⟩
  · intro i g hg
    -- A frame of the sequence before, or the new one.
    rcases Nat.lt_or_ge i frames.length with hi | hi
    · exact h.lsn (by rwa [List.getElem?_append_left hi] at hg)
    · rw [List.getElem?_append_right hi] at hg
      obtain ⟨hi', hg'⟩ := List.getElem?_eq_some_iff.mp hg
      have hlast : i = frames.length := by
        simp only [List.length_singleton] at hi'
        omega
      subst hlast
      simp only [Nat.sub_self, List.getElem_cons_zero] at hg'
      rw [← hg', hlsn]
  · rw [List.length_append, List.length_singleton]
    omega
  · intro g hg
    -- Payloads are short, those before and the new one.
    rcases List.mem_append.mp hg with hold | hnew
    · exact h.short hold
    · rw [List.mem_singleton.mp hnew]
      exact hshort

end IsSequence

/-! ## Bytes -/

/-- The bytes of frames one behind the other. -/
def Frame.encodeAll (salt : UInt64) (frames : List Frame) : List UInt8 :=
  frames.flatMap fun f => f.encode salt

/-- The bytes of a log that holds frames. -/
def LogHeader.contents (h : LogHeader) (frames : List Frame) : List UInt8 :=
  h.encode ++ Frame.encodeAll h.salt frames

theorem Frame.encodeAll_cons (salt : UInt64) (f : Frame) (rest : List Frame) :
    Frame.encodeAll salt (f :: rest) = f.encode salt ++ Frame.encodeAll salt rest := by
  rw [encodeAll, List.flatMap_cons, encodeAll]

theorem Frame.encodeAll_concat (salt : UInt64) (frames : List Frame) (f : Frame) :
    Frame.encodeAll salt (frames ++ [f]) = Frame.encodeAll salt frames ++ f.encode salt := by
  simp [encodeAll]

theorem LogHeader.contents_nil (h : LogHeader) : h.contents [] = h.encode := by
  simp [contents, Frame.encodeAll]

/-- A frame takes at least the bytes of its header. -/
theorem Frame.length_le_encodeAll (salt : UInt64) (frames : List Frame) :
    frames.length ≤ (Frame.encodeAll salt frames).length := by
  induction frames with
  | nil => simp
  | cons f rest ih =>
    rw [encodeAll_cons, List.length_append, length_encode, List.length_cons]
    have hsize : FrameHeader.size = 32 := rfl
    omega

/-- Frames as a scan finds them in bytes, the first one with the expected number if there is one:
each frame has the number after that of the frame before it, and none comes before the first number
of the log. What the spare fields hold is of no account. -/
inductive Frame.Chained (header : LogHeader) : Option Lsn → List Frame → List UInt8 → Prop
  | nil (expected : Option Lsn) : Chained header expected [] []
  | cons {expected : Option Lsn} {f : Frame} {rest : List Frame} {bs spare : List UInt8}
      (hspare : spare.length = 4) (hshort : f.payload.length < UInt32.size)
      (hstarts : header.startLsn.val ≤ f.lsn.val) (hexpected : expected.all (· == f.lsn) = true)
      (hrest : Chained header (some f.lsn.next) rest bs) :
      Chained header expected (f :: rest) (f.encodeWith header.salt spare ++ bs)

namespace Frame.Chained

variable {header : LogHeader} {expected : Option Lsn} {frames : List Frame} {bs : List UInt8}

/-- Frames take as many bytes as if their spare fields held zeros. -/
theorem length_eq (h : Chained header expected frames bs) :
    bs.length = (encodeAll header.salt frames).length := by
  induction h with
  | nil => rfl
  | cons hspare _ _ _ _ ih =>
    rw [encodeAll_cons, List.length_append, List.length_append, ih, length_encode,
      length_encodeWith _ _ hspare]

end Frame.Chained

/-- The encodings of frames in order are found by a scan. -/
theorem IsSequence.chained {header : LogHeader} {l : Lsn} {frames : List Frame}
    {expected : Option Lsn} (h : IsSequence l frames) (hstarts : header.startLsn.val ≤ l.val)
    (hexpected : expected.all (· == l) = true) :
    Frame.Chained header expected frames (Frame.encodeAll header.salt frames) := by
  induction frames generalizing l expected with
  | nil => exact .nil expected
  | cons f rest ih =>
    have hbounded := h.bounded
    rw [List.length_cons] at hbounded
    -- Numbers do not start over within a sequence, so that the next one is a later one.
    have hnext : l.val ≤ l.next.val := by
      rw [UInt64.le_iff_toNat_le, toNat_next (by omega)]
      omega
    rw [Frame.encodeAll_cons]
    refine Frame.Chained.cons rfl (h.short List.mem_cons_self) (h.head ▸ hstarts)
      (h.head ▸ hexpected) ?_
    rw [h.head]
    exact ih h.tail (UInt64.le_trans hstarts hnext) (beq_self_eq_true l.next)

/-! ## Reading -/

namespace Device

variable {d : Device} {offset n : Nat}

/-- Bytes that a device has can be read. -/
theorem runOn_read (hread : d.faults.read = false) (h : offset + n ≤ d.size) :
    (read offset n).runOn d = (.ok ((d.bytes.drop offset).take n), d) := by
  have hfault : d.readFault offset n = none := by
    unfold readFault
    cases d.backing <;> simp [hread, memoryReadFault, hostReadFault, h]
  rw [read, runOn_bind, runOn_get]
  simp only [hfault]
  rfl

/-- A known run of bytes is read as a whole. -/
theorem runOn_read_run {bs rest : List UInt8} (hread : d.faults.read = false)
    (h : d.bytes.drop offset = bs ++ rest) (hoffset : offset ≤ d.size) :
    (read offset bs.length).runOn d = (.ok bs, d) := by
  have hlength := congrArg List.length h
  rw [List.length_drop, List.length_append] at hlength
  have hsize : d.size = d.bytes.length := rfl
  rw [runOn_read hread (by omega), h, List.take_left]

end Device

/-! ## Scanning -/

namespace LogScan

variable {d : Device} {s : LogScan}

/-- A scan ends where no header fits in. -/
theorem runOn_next_of_end (h : s.limit < s.offset + FrameHeader.size) (d : Device) :
    s.next.runOn d = (.ok (none, s.stop), d) := by
  rw [next, if_pos h]
  rfl

/-- A scan gives the frame that stands at its place, if it may stand there. -/
theorem runOn_next_encodeWith {f : Frame} {spare rest : List UInt8}
    (hread : d.faults.read = false) (hspare : spare.length = 4)
    (hshort : f.payload.length < UInt32.size) (hoffset : s.offset ≤ d.size)
    (hbytes : d.bytes.drop s.offset = f.encodeWith s.header.salt spare ++ rest)
    (hlimit : s.offset + (f.encode s.header.salt).length ≤ s.limit)
    (hstart : s.header.startLsn.val ≤ f.lsn.val)
    (hexpected : s.expected.all (· == f.lsn) = true) :
    s.next.runOn d =
      (.ok (some f, s.past f (s.offset + (f.encode s.header.salt).length)), d) := by
  rw [Frame.length_encode] at hlimit ⊢
  -- There is room for a header, the header is admitted, and its payload follows it.
  have hroom : ¬ s.limit < s.offset + FrameHeader.size := by omega
  have hlength : (f.header s.header.salt).length.toNat = f.payload.length := by
    show (UInt32.ofNat f.payload.length).toNat = f.payload.length
    rw [UInt32.toNat_ofNat']
    exact Nat.mod_eq_of_lt hshort
  have hsize := FrameHeader.length_encodeWith (f.header s.header.salt) hspare
  have hheader : d.bytes.drop s.offset =
      (f.header s.header.salt).encodeWith spare ++ (f.payload ++ rest) := by
    rw [hbytes, Frame.encodeWith, List.append_assoc]
  have hreadHeader := Device.runOn_read_run hread hheader hoffset
  rw [hsize] at hreadHeader
  have hpayload : d.bytes.drop (s.offset + FrameHeader.size) = f.payload ++ rest := by
    rw [← List.drop_drop, hheader, List.drop_left' hsize]
  have hinside := congrArg List.length hbytes
  rw [List.length_drop, List.length_append, Frame.length_encodeWith _ _ hspare] at hinside
  have hreadPayload := Device.runOn_read_run hread hpayload (by
    show s.offset + FrameHeader.size ≤ d.bytes.length
    have hpos : FrameHeader.size = 32 := rfl
    omega)
  have hadmits : s.admits (f.header s.header.salt) = true := by
    have hfits : s.offset + FrameHeader.size + f.payload.length ≤ s.limit := by omega
    simp only [admits, hlength, Bool.and_eq_true, decide_eq_true_eq]
    exact ⟨⟨hstart, hexpected⟩, hfits⟩
  -- Now the scan is run: header, payload, and the sum over both.
  rw [next, if_neg hroom, runOn_bind, hreadHeader]
  simp only [FrameHeader.decode_encodeWith _ hspare, hadmits, if_true, runOn_bind, hlength,
    hreadPayload]
  have hsum : Crc32.ofFrame s.header.salt (f.header s.header.salt).txn.val f.payload =
      (f.header s.header.salt).checksum := rfl
  rw [if_pos hsum, Nat.add_assoc]
  rfl

/-- A scan stops at a header that it does not admit, and at bytes that are none. -/
theorem runOn_next_of_refused {bs rest : List UInt8}
    (hread : d.faults.read = false) (hoffset : s.offset ≤ d.size)
    (hbytes : d.bytes.drop s.offset = bs ++ rest) (hlength : bs.length = FrameHeader.size)
    (hrefused : ∀ h, FrameHeader.decode bs = some h → s.admits h = false) :
    s.next.runOn d = (.ok (none, s.stop), d) := by
  -- There may be no room for a header, or the header is not admitted.
  by_cases hroom : s.limit < s.offset + FrameHeader.size
  · exact runOn_next_of_end hroom d
  have hheader := Device.runOn_read_run hread hbytes hoffset
  rw [hlength] at hheader
  rw [next, if_neg hroom, runOn_bind, hheader]
  simp only
  cases hdecode : FrameHeader.decode bs with
  | none => rfl
  | some h =>
    simp only [hrefused h hdecode]
    rfl

/-- A scan within the bytes of a device always goes on: it gives a frame that ends before the limit,
or it stops there. -/
theorem next_total (hread : d.faults.read = false) (hlimit : s.limit ≤ d.size)
    (hvalid : s.validUpTo ≤ s.offset) (hoffset : s.offset ≤ s.limit) :
    ∃ frame s', s.next.runOn d = (.ok (frame, s'), d) ∧ s'.limit = s.limit ∧
      s.validUpTo ≤ s'.validUpTo ∧ s'.validUpTo ≤ s'.offset ∧ s'.offset ≤ s'.limit := by
  -- Every early end of the scan is its stop, which moves the offset to the limit.
  have hstops : s.stop.limit = s.limit ∧ s.validUpTo ≤ s.stop.validUpTo ∧
      s.stop.validUpTo ≤ s.stop.offset ∧ s.stop.offset ≤ s.stop.limit :=
    ⟨rfl, Nat.le_refl _, Nat.le_trans hvalid hoffset, Nat.le_refl _⟩
  by_cases hroom : s.limit < s.offset + FrameHeader.size
  · exact ⟨none, s.stop, runOn_next_of_end hroom d, hstops⟩
  rw [next, if_neg hroom, runOn_bind, Device.runOn_read hread (by omega)]
  simp only
  cases FrameHeader.decode ((d.bytes.drop s.offset).take FrameHeader.size) with
  | none => exact ⟨none, s.stop, rfl, hstops⟩
  | some h =>
    simp only
    by_cases hadmits : s.admits h = true
    · have hfits : s.offset + FrameHeader.size + h.length.toNat ≤ s.limit := by
        simp only [admits, Bool.and_eq_true, decide_eq_true_eq] at hadmits
        exact hadmits.2
      -- The payload of a header that is admitted lies before the limit.
      rw [if_pos hadmits, runOn_bind, Device.runOn_read hread (Nat.le_trans hfits hlimit)]
      simp only
      split
      · refine ⟨_, _, rfl, rfl, ?_, Nat.le_refl _, hfits⟩
        show s.validUpTo ≤ s.offset + FrameHeader.size + h.length.toNat
        omega
      · exact ⟨none, s.stop, rfl, hstops⟩
    · rw [if_neg hadmits]
      exact ⟨none, s.stop, rfl, hstops⟩

-- By induction on the bound, each frame of which leaves the scan within its limit.
theorem collect_total (hread : d.faults.read = false) (hlimit : s.limit ≤ d.size)
    (hvalid : s.validUpTo ≤ s.offset) (hoffset : s.offset ≤ s.limit) (bound : Nat) :
    ∃ frames s', (collect bound s).runOn d = (.ok (frames, s'), d) ∧
      s.validUpTo ≤ s'.validUpTo ∧ s'.validUpTo ≤ s.limit := by
  induction bound generalizing s with
  | zero => exact ⟨[], s, rfl, Nat.le_refl _, Nat.le_trans hvalid hoffset⟩
  | succ bound ih =>
    obtain ⟨frame, s₁, hnext, hsame, hmore, hvalid₁, hoffset₁⟩ :=
      next_total hread hlimit hvalid hoffset
    rw [collect, runOn_bind, hnext]
    cases frame with
    | none => exact ⟨[], s₁, rfl, hmore, hsame ▸ Nat.le_trans hvalid₁ hoffset₁⟩
    | some f =>
      obtain ⟨frames, s₂, hrest, hmore₂, hvalid₂⟩ := ih (hsame ▸ hlimit) hvalid₁ hoffset₁
      simp only [runOn_bind, hrest]
      exact ⟨f :: frames, s₂, rfl, Nat.le_trans hmore hmore₂, hsame ▸ hvalid₂⟩

/-- A scan stands where the given frames begin, and so many bytes lie between them and its limit. -/
structure StandsBefore (s : LogScan) (d : Device) (frames : List Frame) (extra : Nat) : Prop where
  inside : s.offset ≤ d.size
  bytes : ∃ stored rest, Frame.Chained s.header s.expected frames stored ∧
    d.bytes.drop s.offset = stored ++ rest
  limit : s.limit = s.offset + (Frame.encodeAll s.header.salt frames).length + extra
  validUpTo : s.validUpTo = s.offset

namespace StandsBefore

variable {frames : List Frame} {f : Frame} {extra : Nat}

theorem next_nil (h : s.StandsBefore d [] 0) : s.next.runOn d = (.ok (none, s.stop), d) := by
  have hlimit : s.limit = s.offset := h.limit
  apply runOn_next_of_end
  rw [hlimit, FrameHeader.size]
  omega

/-- The scan gives the first frame, and then stands before the others. -/
theorem next_cons (hread : d.faults.read = false) (h : s.StandsBefore d (f :: frames) extra) :
    ∃ s', s.next.runOn d = (.ok (some f, s'), d) ∧ s'.StandsBefore d frames extra ∧
      s'.limit = s.limit ∧ s'.header = s.header := by
  -- The first frame lies at the offset, and the others lie behind it.
  obtain ⟨stored, rest, hchained, hbytes⟩ := h.bytes
  cases hchained with
  | @cons _ _ _ more spare hspare hshort hstarts hexpected hchained =>
  have hlimit := h.limit
  rw [Frame.encodeAll_cons, List.length_append] at hlimit
  rw [List.append_assoc] at hbytes
  have hnext := runOn_next_encodeWith hread hspare hshort h.inside hbytes (by omega) hstarts
    hexpected
  have hlength := (Frame.length_encodeWith f s.header.salt hspare).trans
    (Frame.length_encode f s.header.salt).symm
  -- The scan stands within the device, before the other frames, and as far from its limit.
  refine ⟨_, hnext, ⟨?_, ⟨more, rest, hchained, ?_⟩, ?_, rfl⟩, rfl, rfl⟩
  · have hsize := congrArg List.length hbytes
    rw [List.length_drop, List.length_append, hlength] at hsize
    have hinside := h.inside
    show s.offset + (f.encode s.header.salt).length ≤ d.bytes.length
    simp only [Frame.length_encode, FrameHeader.size, Device.size] at *
    omega
  · show d.bytes.drop (s.offset + (f.encode s.header.salt).length) = _
    rw [← List.drop_drop, hbytes, List.drop_left' hlength]
  · show s.limit = s.offset + (f.encode s.header.salt).length + _ + extra
    rw [hlimit, ← Nat.add_assoc s.offset]
    rfl

/-- A scan gives the frames that it stands before, and goes on behind them. -/
theorem collect_past (hread : d.faults.read = false) (h : s.StandsBefore d frames extra) :
    ∃ s', s'.StandsBefore d [] extra ∧ s'.limit = s.limit ∧ s'.header = s.header ∧
      ∀ bound more s'', (LogScan.collect bound s').runOn d = (.ok (more, s''), d) →
        (LogScan.collect (frames.length + bound) s).runOn d = (.ok (frames ++ more, s''), d) := by
  -- The scan varies: behind each frame another one begins.
  induction frames generalizing s with
  | nil =>
    refine ⟨s, h, rfl, rfl, fun bound more s'' hrun => ?_⟩
    rwa [List.length_nil, Nat.zero_add]
  | cons f rest ih =>
    obtain ⟨s₁, hnext, hbefore, hsame, hheader⟩ := h.next_cons hread
    obtain ⟨s₂, hend, hsame₂, hheader₂, hgoes⟩ := ih hbefore
    refine ⟨s₂, hend, hsame₂.trans hsame, hheader₂.trans hheader, fun bound more s'' hrun => ?_⟩
    rw [List.length_cons, Nat.add_right_comm, LogScan.collect, runOn_bind, hnext]
    simp only [runOn_bind, hgoes bound more s'' hrun]
    rfl

/-- What is read behind the frames lies before the limit. -/
theorem collect_append (hread : d.faults.read = false) (hsize : s.limit ≤ d.size)
    (h : s.StandsBefore d frames extra) {bound : Nat} (hbound : frames.length < bound) :
    ∃ more s', (LogScan.collect bound s).runOn d = (.ok (frames ++ more, s'), d) ∧
      s.limit ≤ s'.validUpTo + extra ∧ s'.validUpTo ≤ s.limit ∧ (extra = 0 → more = []) := by
  obtain ⟨s₁, hend, hsame, -, hgoes⟩ := h.collect_past hread
  obtain ⟨n, rfl⟩ : ∃ n, bound = frames.length + (n + 1) := ⟨bound - frames.length - 1, by omega⟩
  have hlimit : s₁.limit = s₁.offset + extra := hend.limit
  have hvalid := hend.validUpTo
  obtain ⟨more, s₂, hrun, hleast, hmost⟩ :=
    collect_total hread (hsame ▸ hsize) (Nat.le_of_eq hvalid) (by omega) (n + 1)
  refine ⟨more, s₂, hgoes _ _ _ hrun, by omega, by omega, ?_⟩
  -- At its limit a scan stops at once.
  rintro rfl
  rw [LogScan.collect, runOn_bind, hend.next_nil] at hrun
  cases hrun
  rfl

end StandsBefore

/-! ## Frames behind a head -/

variable {header : LogHeader} {head rest : List UInt8} {first : Lsn} {frames : List Frame}

/-- A scan whose limit lies behind chained frames starts before them. -/
theorem standsBefore_chained {stored : List UInt8} (hhead : head.length = LogHeader.size)
    (hchained : Frame.Chained header none frames stored) (hbytes : d.bytes = head ++ stored ++ rest)
    (extra : Nat) :
    (start header ((head ++ stored).length + extra)).StandsBefore d frames extra := by
  -- The first frame lies behind the header, and what is not a frame comes last.
  refine ⟨?_, ⟨stored, rest, hchained, ?_⟩, ?_, rfl⟩
  · show LogHeader.size ≤ d.bytes.length
    rw [hbytes, List.length_append, List.length_append, hhead]
    omega
  · show d.bytes.drop LogHeader.size = _
    rw [hbytes, List.append_assoc, List.drop_left' hhead]
  · show (head ++ stored).length + extra =
      LogHeader.size + (Frame.encodeAll header.salt frames).length + extra
    rw [List.length_append, hhead, hchained.length_eq]

/-- A scan gives chained frames and no others if it stops behind them. -/
theorem runOn_frames_stopping {stored : List UInt8} (hread : d.faults.read = false)
    (hhead : head.length = LogHeader.size) (hchained : Frame.Chained header none frames stored)
    (hbytes : d.bytes = head ++ stored ++ rest) {extra : Nat}
    (hstops : ∀ s : LogScan, s.header = header → s.offset = (head ++ stored).length →
      s.offset ≤ d.size → s.limit = s.offset + extra → s.next.runOn d = (.ok (none, s.stop), d)) :
    ∃ s', (start header ((head ++ stored).length + extra)).frames.runOn d =
        (.ok (frames, s'), d) ∧ s'.validUpTo = (head ++ stored).length := by
  -- The scan passes all frames, and the condition says what it does behind them.
  have hbefore := standsBefore_chained hhead hchained hbytes extra
  obtain ⟨s, hend, hsame, hheader, hgoes⟩ := hbefore.collect_past hread
  have hlimit : s.limit = s.offset + extra := hend.limit
  have hlimit' : s.limit = (head ++ stored).length + extra := hsame
  have hoffset : s.offset = (head ++ stored).length := by omega
  have hnext := hstops s hheader hoffset hend.inside hlimit
  -- Each frame takes some bytes, so that the bound is not met before.
  have hcount := Frame.length_le_encodeAll header.salt frames
  rw [← hchained.length_eq] at hcount
  obtain ⟨n, hn⟩ : ∃ n, (head ++ stored).length + extra - LogHeader.size + 1 =
      frames.length + (n + 1) := by
    rw [List.length_append, hhead]
    exact ⟨stored.length - frames.length + extra, by omega⟩
  have hstop : (collect (n + 1) s).runOn d = (.ok ([], s.stop), d) := by
    rw [collect, runOn_bind, hnext]
    rfl
  have hrun := hgoes (n + 1) [] s.stop hstop
  rw [List.append_nil, ← hn] at hrun
  exact ⟨s.stop, hrun, hend.validUpTo.trans hoffset⟩

/-- Chained frames behind a head, up to their end. -/
theorem runOn_frames_chained {stored : List UInt8} (hread : d.faults.read = false)
    (hhead : head.length = LogHeader.size) (hchained : Frame.Chained header none frames stored)
    (hbytes : d.bytes = head ++ stored ++ rest) :
    ∃ s', (start header (head ++ stored).length).frames.runOn d = (.ok (frames, s'), d) ∧
      s'.validUpTo = (head ++ stored).length := by
  have hstopping : ∃ s', (start header ((head ++ stored).length + 0)).frames.runOn d =
      (.ok (frames, s'), d) ∧ s'.validUpTo = (head ++ stored).length :=
    runOn_frames_stopping hread hhead hchained hbytes fun s _ _ _ hlimit =>
      runOn_next_of_end (by rw [hlimit, FrameHeader.size]; omega) d
  exact hstopping

/-- A scan whose limit lies behind frames starts before them if their numbers do not come before
that of its header. -/
theorem standsBefore_behind (hhead : head.length = LogHeader.size)
    (hstarts : header.startLsn.val ≤ first.val) (hseq : IsSequence first frames)
    (hbytes : d.bytes = head ++ Frame.encodeAll header.salt frames ++ rest) (extra : Nat) :
    (start header ((head ++ Frame.encodeAll header.salt frames).length + extra)).StandsBefore d
      frames extra :=
  standsBefore_chained hhead (hseq.chained hstarts rfl) hbytes extra

/-- The frames behind a head, and what is read from the bytes that follow them up to the limit. -/
theorem runOn_frames_behind (hread : d.faults.read = false) (hhead : head.length = LogHeader.size)
    (hstarts : header.startLsn.val ≤ first.val) (hseq : IsSequence first frames)
    (hbytes : d.bytes = head ++ Frame.encodeAll header.salt frames ++ rest) {extra : Nat}
    (hextra : extra ≤ rest.length) :
    ∃ more s',
      (start header ((head ++ Frame.encodeAll header.salt frames).length + extra)).frames.runOn d =
        (.ok (frames ++ more, s'), d) ∧
      (head ++ Frame.encodeAll header.salt frames).length ≤ s'.validUpTo ∧
      s'.validUpTo ≤ (head ++ Frame.encodeAll header.salt frames).length + extra ∧
      (extra = 0 → more = []) := by
  -- What lies behind the frames may hold more of them, up to the extra bytes.
  have hbefore := standsBefore_behind hhead hstarts hseq hbytes extra
  have hcount := Frame.length_le_encodeAll header.salt frames
  have hsize : (start header ((head ++ Frame.encodeAll header.salt frames).length + extra)).limit ≤
      d.size := by
    have hlength := congrArg List.length hbytes
    rw [List.length_append] at hlength
    show (head ++ Frame.encodeAll header.salt frames).length + extra ≤ d.bytes.length
    omega
  -- The scan is given more steps than there are frames.
  have hbound : frames.length <
      (head ++ Frame.encodeAll header.salt frames).length + extra - LogHeader.size + 1 := by
    rw [List.length_append, hhead]
    omega
  obtain ⟨more, s', hrun, hleast, hmost, hnone⟩ := hbefore.collect_append hread hsize hbound
  exact ⟨more, s', hrun, Nat.le_of_add_le_add_right hleast, hmost, hnone⟩

/-- A scan of a log's contents starts before its frames. -/
theorem standsBefore_start (hseq : IsSequence header.startLsn frames)
    (hbytes : d.bytes = header.contents frames ++ rest) :
    (start header (header.contents frames).length).StandsBefore d frames 0 :=
  standsBefore_behind header.length_encode (UInt64.le_refl _) hseq hbytes 0

end LogScan

end TxnStore
