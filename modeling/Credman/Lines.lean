import Credman.Framing

/-! The frontend's input as lines. The stream arrives in pieces, and a line may lie across several of
them. -/
namespace Credman.Mcp

open Library

def newline : UInt8 := 10

/-- What the next read of the input finds, nothing at its end, or that it does not come in time. -/
inductive Arrival where
  | read (chunk : Bytes)
  | late
  deriving DecidableEq, Repr

def Arrival.length : Arrival → Nat
  | read chunk => chunk.length
  | late => 0

/-- `BufReader<File>`: what it has read and not given out, and what its next reads find. Past
these the file is at its end. -/
structure Reader where
  buffer : Bytes
  arrivals : List Arrival
  deriving DecidableEq, Repr

namespace Reader

def unread (r : Reader) : Nat := r.buffer.length + (r.arrivals.map Arrival.length).sum

/-- `ready`, where nothing is buffered, and `fill_buf`. -/
def fillBuf : EStateM Error Reader Bytes := fun r =>
  if r.buffer.isEmpty then
    match r.arrivals with
    | [] => .ok [] r
    | .read chunk :: rest => .ok chunk { buffer := chunk, arrivals := rest }
    | .late :: rest => .error .invalid { r with arrivals := rest }
  else .ok r.buffer r

def consume (count : Nat) (r : Reader) : Reader := { r with buffer := r.buffer.drop count }

theorem fillBuf_ok {r r' : Reader} {buffer : Bytes} (h : fillBuf r = .ok buffer r') :
    r'.buffer = buffer ∧ r'.unread = r.unread := by
  unfold fillBuf at h
  split_ifs at h with hempty
  · have hnil := List.isEmpty_iff.mp hempty
    split at h
    · cases h
      exact ⟨hnil, rfl⟩
    · next chunk rest harrivals =>
      cases h
      refine ⟨rfl, ?_⟩
      simp [unread, hnil, harrivals, Arrival.length]
    · cases h
  · cases h
    exact ⟨rfl, rfl⟩

end Reader

/-- How much of the buffer belongs to the line, its newline included. -/
def lineEnd (buffer : Bytes) : Nat :=
  match buffer.findIdx? (· == newline) with
  | some n => n + 1
  | none => buffer.length

theorem lineEnd_pos {buffer : Bytes} (h : buffer.isEmpty = false) : 0 < lineEnd buffer := by
  unfold lineEnd
  split
  · omega
  · exact List.length_pos_iff.mpr (List.isEmpty_eq_false_iff.mp h)

/-- The loop of `line`, with what it has of the line. -/
def lineFrom (bytes : Bytes) (r : Reader) : EStateM.Result Error Reader (Option Bytes) :=
  match _ : Reader.fillBuf r with
  | .error e r' => .error e r'
  | .ok buffer r' =>
    if _ : buffer.isEmpty then
      if bytes.isEmpty then .ok none r' else .error .invalid r'
    else
      let count := lineEnd buffer
      if maxFrameBytes + 1 < bytes.length + count then .error .invalid r'
      else
        let complete := buffer[count - 1]? == some newline
        let bytes := bytes ++ buffer.take count
        if complete then .ok (some bytes.dropLast) (r'.consume count)
        else lineFrom bytes (r'.consume count)
termination_by r.unread
decreasing_by
  next hfill hempty _ _ =>
  obtain ⟨hbuffer, hunread⟩ := Reader.fillBuf_ok hfill
  have hpos := lineEnd_pos (eq_false_of_ne_true hempty)
  have hlong := List.length_pos_iff.mpr (mt List.isEmpty_iff.mpr hempty)
  rw [← hunread]
  simp only [Reader.unread, Reader.consume, hbuffer, List.length_drop]
  omega

def line : EStateM Error Reader (Option Bytes) := lineFrom []

/-! The end of the line within a buffer. -/

theorem lineEnd_append {a tail : Bytes} (h : newline ∉ a) :
    lineEnd (a ++ newline :: tail) = a.length + 1 := by
  have hfind : (a ++ newline :: tail).findIdx? (· == newline) = some a.length := by
    rw [List.findIdx?_append]
    have hnone : a.findIdx? (· == newline) = none := by
      rw [List.findIdx?_eq_none_iff]
      intro b hb
      exact beq_false_of_ne fun heq => h (heq ▸ hb)
    rw [hnone]
    simp [List.findIdx?_cons]
  unfold lineEnd
  rw [hfind]

theorem lineEnd_of_not_mem {buffer : Bytes} (h : newline ∉ buffer) : lineEnd buffer = buffer.length := by
  have hfind : buffer.findIdx? (· == newline) = none := by
    rw [List.findIdx?_eq_none_iff]
    intro b hb
    exact beq_false_of_ne fun heq => h (heq ▸ hb)
  unfold lineEnd
  rw [hfind]

/-- The line ends in the buffer where the byte before its end is the newline. -/
theorem lineEnd_cases {buffer : Bytes} (hne : buffer ≠ []) :
    (∃ a tail, buffer = a ++ newline :: tail ∧ newline ∉ a ∧ lineEnd buffer = a.length + 1
      ∧ buffer[lineEnd buffer - 1]? = some newline)
    ∨ newline ∉ buffer ∧ lineEnd buffer = buffer.length ∧ buffer[lineEnd buffer - 1]? ≠ some newline := by
  by_cases hmem : newline ∈ buffer
  · obtain ⟨a, tail, rfl, ha⟩ := List.eq_append_cons_of_mem hmem
    refine .inl ⟨a, tail, rfl, ha, lineEnd_append ha, ?_⟩
    rw [lineEnd_append ha]
    simp
  · refine .inr ⟨hmem, lineEnd_of_not_mem hmem, fun hlast => hmem ?_⟩
    exact List.mem_of_getElem? hlast

/-! What a call of `line` makes of the stream. -/

def Arrival.bytes : Arrival → Bytes
  | read chunk => chunk
  | late => []

namespace Reader

/-- All that is still to be read. -/
def stream (r : Reader) : Bytes := r.buffer ++ r.arrivals.flatMap Arrival.bytes

/-- Every read finds some bytes, and in time. -/
def Prompt (r : Reader) : Prop := ∀ a ∈ r.arrivals, ∃ chunk, a = .read chunk ∧ chunk ≠ []

theorem fillBuf_prompt {r : Reader} (h : r.Prompt) : ∃ buffer r', fillBuf r = .ok buffer r'
    ∧ r'.buffer = buffer ∧ r'.stream = r.stream ∧ r'.Prompt ∧ (buffer = [] → r.stream = []) := by
  by_cases hempty : r.buffer = []
  · cases harrivals : r.arrivals with
    | nil =>
      refine ⟨[], r, ?_, hempty, rfl, h, fun _ => ?_⟩
      · simp [fillBuf, hempty, harrivals]
      · simp [stream, hempty, harrivals]
    | cons a rest =>
      obtain ⟨chunk, rfl, hchunk⟩ := h a (harrivals ▸ List.mem_cons_self)
      refine ⟨chunk, { buffer := chunk, arrivals := rest }, ?_, rfl, ?_, ?_, fun hnil => absurd hnil hchunk⟩
      · simp [fillBuf, hempty, harrivals]
      · simp [stream, hempty, harrivals, Arrival.bytes]
      · exact fun a ha => h a (harrivals ▸ List.mem_cons_of_mem _ ha)
  · refine ⟨r.buffer, r, ?_, rfl, rfl, h, fun hnil => absurd hnil hempty⟩
    simp [fillBuf, hempty]

end Reader

/-- The result of one call, given what it has and all that is still to be read. -/
inductive Reads (s : Bytes) : EStateM.Result Error Reader (Option Bytes) → Prop
  | line {l : Bytes} {r : Reader} (hs : s = l ++ newline :: r.stream) (hl : newline ∉ l)
      (hfits : l.length ≤ maxFrameBytes) (hprompt : r.Prompt) : Reads s (.ok (some l) r)
  | ended {r : Reader} (hs : s = []) : Reads s (.ok none r)
  | refused {r : Reader} (hs : s ≠ []) (hlong : ∀ l rest, s = l ++ newline :: rest → newline ∉ l →
      maxFrameBytes < l.length) : Reads s (.error .invalid r)

theorem line_unique {l l' rest rest' : Bytes} (hl : newline ∉ l) (hl' : newline ∉ l')
    (h : l ++ newline :: rest = l' ++ newline :: rest') : l = l' ∧ rest = rest' := by
  induction l generalizing l' with
  | nil =>
    cases l' with
    | nil => exact ⟨rfl, (List.cons.inj h).2⟩
    | cons b l' =>
      have hb : newline = b := (List.cons.inj h).1
      exact absurd (hb ▸ List.mem_cons_self) hl'
  | cons a l ih =>
    cases l' with
    | nil =>
      have ha : a = newline := (List.cons.inj h).1
      exact absurd (ha ▸ List.mem_cons_self) hl
    | cons b l' =>
      obtain ⟨rfl, htail⟩ := List.cons.inj h
      obtain ⟨rfl, hrest⟩ := ih (fun hin => hl (List.mem_cons_of_mem _ hin))
        (fun hin => hl' (List.mem_cons_of_mem _ hin)) htail
      exact ⟨rfl, hrest⟩

/-- A line is no shorter than what is known to come before its newline. -/
theorem length_le_of_line {part rest l tail : Bytes} (hpart : newline ∉ part)
    (h : part ++ rest = l ++ newline :: tail) : part.length ≤ l.length := by
  rcases List.append_eq_append_iff.mp h with ⟨c, rfl, -⟩ | ⟨c, rfl, hc⟩
  · rw [List.length_append]
    omega
  · cases c with
    | nil => simp
    | cons b c =>
      have hb : newline = b := (List.cons.inj hc).1
      exact absurd (hb ▸ List.mem_append_right l List.mem_cons_self) hpart

theorem lineFrom_reads (r : Reader) : ∀ bytes, newline ∉ bytes → r.Prompt →
    Reads (bytes ++ r.stream) (lineFrom bytes r) := by
  induction hsize : r.unread using Nat.strong_induction_on generalizing r with
  | _ size ih =>
    intro bytes hbytes hprompt
    obtain ⟨buffer, r', hfill, hbuffer, hstream, hprompt', hend⟩ := Reader.fillBuf_prompt hprompt
    have hunread := (Reader.fillBuf_ok hfill).2
    unfold lineFrom
    split
    · next e r'' herror =>
      rw [hfill] at herror
      cases herror
    · next buffer' r'' hok =>
      rw [hfill] at hok
      cases hok
      by_cases hempty : buffer = []
      · -- the stream has ended
        rw [dif_pos (List.isEmpty_iff.mpr hempty), hend hempty, List.append_nil]
        by_cases hnone : bytes = []
        · rw [if_pos (List.isEmpty_iff.mpr hnone)]
          exact .ended hnone
        · rw [if_neg (mt List.isEmpty_iff.mp hnone)]
          refine .refused hnone fun l rest heq _ => absurd ?_ hbytes
          rw [heq]
          exact List.mem_append_right l List.mem_cons_self
      · rw [dif_neg (mt List.isEmpty_iff.mp hempty)]
        obtain ⟨rest, hrest⟩ : ∃ rest, r'.stream = buffer ++ rest := ⟨_, by rw [Reader.stream, hbuffer]⟩
        rw [← hstream, hrest]
        dsimp only
        by_cases hlong : maxFrameBytes + 1 < bytes.length + lineEnd buffer
        · rw [if_pos hlong]
          refine .refused (by simp [hempty]) fun l tail heq hl => ?_
          rcases lineEnd_cases hempty with ⟨a, tail', rfl, ha, hlength, -⟩ | ⟨hnot, hlength, -⟩
          · have hjoined : bytes ++ a ++ newline :: (tail' ++ rest) = l ++ newline :: tail := by
              rw [← heq]
              simp
            have hsame : bytes ++ a = l := (line_unique (by simp [hbytes, ha]) hl hjoined).1
            rw [← hsame, List.length_append]
            omega
          · have hle : (bytes ++ buffer).length ≤ l.length :=
              length_le_of_line (by simp [hbytes, hnot]) (by rw [List.append_assoc, heq])
            rw [List.length_append] at hle
            omega
        · rw [if_neg hlong]
          rcases lineEnd_cases hempty with ⟨a, tail, rfl, ha, hlength, hlast⟩ | ⟨hnot, hlength, hlast⟩
          · -- the line ends in this buffer
            rw [if_pos (beq_iff_eq.mpr hlast)]
            have htake : (a ++ newline :: tail).take (lineEnd (a ++ newline :: tail)) = a ++ [newline] := by
              rw [hlength, List.take_append]
              simp
            have hdrop : (r'.consume (lineEnd (a ++ newline :: tail))).stream = tail ++ rest := by
              have hconsumed : ((a ++ newline :: tail).drop (a.length + 1)) = tail := by simp
              rw [Reader.stream, hbuffer, List.append_cancel_left_eq] at hrest
              rw [Reader.stream, Reader.consume, hbuffer, hlength, hconsumed, hrest]
            have hline : (bytes ++ (a ++ [newline])).dropLast = bytes ++ a := by
              rw [← List.append_assoc, List.dropLast_concat]
            rw [htake, hline]
            refine .line ?_ (by simp [hbytes, ha]) ?_ hprompt'
            · rw [hdrop]
              simp
            · rw [List.length_append]
              omega
          · -- it does not, and the whole buffer belongs to it
            rw [if_neg (mt beq_iff_eq.mp hlast), hlength, List.take_length, ← List.append_assoc]
            have hdrop : (r'.consume buffer.length).stream = rest := by
              rw [Reader.stream, hbuffer, List.append_cancel_left_eq] at hrest
              rw [Reader.stream, Reader.consume, hbuffer, List.drop_length, hrest]
              rfl
            have hless : (r'.consume buffer.length).unread < size := by
              have hpos := List.length_pos_iff.mpr hempty
              rw [← hsize, ← hunread]
              simp only [Reader.unread, Reader.consume, hbuffer, List.drop_length, List.length_nil]
              omega
            have hread := ih _ hless (r'.consume buffer.length) rfl (bytes ++ buffer)
              (by simp [hbytes, hnot]) hprompt'
            rwa [hdrop] at hread

/-- A line takes something off the stream. -/
theorem lineFrom_unread {bytes l : Bytes} {r r' : Reader} (h : lineFrom bytes r = .ok (some l) r') :
    r'.unread < r.unread := by
  induction hsize : r.unread using Nat.strong_induction_on generalizing bytes r with
  | _ size ih =>
    unfold lineFrom at h
    split at h
    · cases h
    · next buffer r'' hfill =>
      obtain ⟨hbuffer, hunread⟩ := Reader.fillBuf_ok hfill
      split_ifs at h with hempty hnone
      · cases h
      · have hpos := lineEnd_pos (eq_false_of_ne_true hempty)
        have hlong := List.length_pos_iff.mpr (mt List.isEmpty_iff.mpr hempty)
        have hless : (r''.consume (lineEnd buffer)).unread < size := by
          rw [← hsize, ← hunread]
          simp only [Reader.unread, Reader.consume, hbuffer, List.length_drop]
          omega
        dsimp only at h
        split_ifs at h with hlimit hcomplete
        · cases h
          exact hless
        · exact (ih _ hless h rfl).trans hless

/-- What `run` gets from `line`, call after call: up to the first result that is not a line. -/
def results (r : Reader) : List (Except Error (Option Bytes)) :=
  match _ : line r with
  | .ok (some bytes) r' => .ok (some bytes) :: results r'
  | .ok none _ => [.ok none]
  | .error e _ => [.error e]
termination_by r.unread
decreasing_by exact lineFrom_unread ‹_›

/-- The results of a stream: its lines, one by one, and how it ends. -/
inductive Delivers : Bytes → List (Except Error (Option Bytes)) → Prop
  | line {l rest : Bytes} {later : List (Except Error (Option Bytes))} (hl : newline ∉ l)
      (hfits : l.length ≤ maxFrameBytes) (h : Delivers rest later) :
    Delivers (l ++ newline :: rest) (.ok (some l) :: later)
  | ended : Delivers [] [.ok none]
  | refused {rest : Bytes} (hne : rest ≠ []) (hlong : ∀ l tail, rest = l ++ newline :: tail → newline ∉ l →
      maxFrameBytes < l.length) : Delivers rest [.error .invalid]

theorem delivers (r : Reader) (h : r.Prompt) : Delivers r.stream (results r) := by
  induction hsize : r.unread using Nat.strong_induction_on generalizing r with
  | _ size ih =>
    have hread := lineFrom_reads r [] List.not_mem_nil h
    rw [List.nil_append] at hread
    change Reads r.stream (line r) at hread
    unfold results
    split
    · next bytes r' hline =>
      have hless := lineFrom_unread hline
      rw [hline] at hread
      cases hread with
      | line hs hl hfits hprompt =>
        rw [hs]
        exact .line hl hfits (ih r'.unread (hsize ▸ hless) r' hprompt rfl)
    · next hline =>
      rw [hline] at hread
      cases hread with
      | ended hs =>
        rw [hs]
        exact .ended
    · next hline =>
      rw [hline] at hread
      cases hread with
      | refused hs hlong => exact .refused hs hlong

/-- A stream has one list of results. -/
theorem Delivers.unique {s : Bytes} {a b : List (Except Error (Option Bytes))} (ha : Delivers s a)
    (hb : Delivers s b) : a = b := by
  induction ha generalizing b with
  | @line l rest later hl hfits h ih =>
    generalize hs : l ++ newline :: rest = s at hb
    cases hb with
    | line hl' hfits' h' =>
      obtain ⟨rfl, rfl⟩ := line_unique hl hl' hs
      rw [ih h']
    | ended => simp at hs
    | refused hne hlong => exact absurd (hlong l rest hs.symm hl) (not_lt.mpr hfits)
  | ended =>
    generalize hs : ([] : Bytes) = s at hb
    cases hb with
    | line => simp at hs
    | ended => rfl
    | refused hne => exact absurd hs.symm hne
  | @refused rest hne hlong =>
    cases hb with
    | line hl' hfits' h' => exact absurd (hlong _ _ rfl hl') (not_lt.mpr hfits')
    | ended => exact absurd rfl hne
    | refused => rfl

/-- The lines that are given out, and what they leave of the stream. -/
theorem Delivers.lines {s : Bytes} {a : List (Except Error (Option Bytes))} (h : Delivers s a) :
    ∃ (lines : List Bytes) (rest : Bytes), s = lines.flatMap (fun l => l ++ [newline]) ++ rest
      ∧ (∀ l ∈ lines, newline ∉ l ∧ l.length ≤ maxFrameBytes)
      ∧ (rest = [] ∧ a = lines.map (fun l => .ok (some l)) ++ [.ok none]
        ∨ rest ≠ [] ∧ (newline ∉ rest ∨ ∃ l tail, rest = l ++ newline :: tail ∧ newline ∉ l
            ∧ maxFrameBytes < l.length) ∧ a = lines.map (fun l => .ok (some l)) ++ [.error .invalid]) := by
  induction h with
  | @line l rest later hl hfits h ih =>
    obtain ⟨lines, left, rfl, hlines, hend⟩ := ih
    refine ⟨l :: lines, left, by simp, ?_, ?_⟩
    · intro l' hin
      rcases List.mem_cons.mp hin with rfl | hin
      · exact ⟨hl, hfits⟩
      · exact hlines l' hin
    · rcases hend with ⟨hnone, rfl⟩ | ⟨hsome, hleft, rfl⟩
      · exact .inl ⟨hnone, rfl⟩
      · exact .inr ⟨hsome, hleft, rfl⟩
  | ended => exact ⟨[], [], rfl, fun _ hin => absurd hin List.not_mem_nil, .inl ⟨rfl, rfl⟩⟩
  | @refused rest hne hlong =>
    refine ⟨[], rest, rfl, fun _ hin => absurd hin List.not_mem_nil, .inr ⟨hne, ?_, rfl⟩⟩
    by_cases hmem : newline ∈ rest
    · obtain ⟨l, tail, rfl, hl⟩ := List.eq_append_cons_of_mem hmem
      exact .inr ⟨l, tail, rfl, hl, hlong l tail rfl hl⟩
    · exact .inl hmem

/-- A reader at the start of a stream that arrives in these pieces. -/
def Reader.of (chunks : List Bytes) : Reader := { buffer := [], arrivals := chunks.map .read }

theorem Reader.stream_of (chunks : List Bytes) : (Reader.of chunks).stream = chunks.flatten := by
  unfold stream Reader.of
  induction chunks with
  | nil => rfl
  | cons chunk rest ih =>
    rw [List.map_cons, List.flatMap_cons, List.flatten_cons, ← ih]
    rfl

theorem Reader.prompt_of {chunks : List Bytes} (h : ∀ chunk ∈ chunks, chunk ≠ []) :
    (Reader.of chunks).Prompt := by
  intro a ha
  obtain ⟨chunk, hin, rfl⟩ := List.mem_map.mp ha
  exact ⟨chunk, rfl, h chunk hin⟩

/-- How the stream is cut into pieces makes no difference. What comes out is its lines in their order,
up to its end or to the first line that is too long or has no end. -/
theorem results_of_chunks {chunks : List Bytes} (h : ∀ chunk ∈ chunks, chunk ≠ []) :
    (∀ chunks', (∀ chunk ∈ chunks', chunk ≠ []) → chunks'.flatten = chunks.flatten →
      results (.of chunks') = results (.of chunks))
    ∧ ∃ (lines : List Bytes) (rest : Bytes), chunks.flatten = lines.flatMap (fun l => l ++ [newline]) ++ rest
      ∧ (∀ l ∈ lines, newline ∉ l ∧ l.length ≤ maxFrameBytes)
      ∧ (rest = [] ∧ results (.of chunks) = lines.map (fun l => .ok (some l)) ++ [.ok none]
        ∨ rest ≠ [] ∧ (newline ∉ rest ∨ ∃ l tail, rest = l ++ newline :: tail ∧ newline ∉ l
            ∧ maxFrameBytes < l.length)
          ∧ results (.of chunks) = lines.map (fun l => .ok (some l)) ++ [.error .invalid]) := by
  have hdelivers := delivers _ (Reader.prompt_of h)
  rw [Reader.stream_of] at hdelivers
  refine ⟨fun chunks' h' hsame => ?_, hdelivers.lines⟩
  have hdelivers' := delivers _ (Reader.prompt_of h')
  rw [Reader.stream_of, hsame] at hdelivers'
  exact hdelivers'.unique hdelivers

/-- Two lines in three pieces, and in one. -/
theorem results_of_chunks_pieces :
    results (.of [[123, 125, 10, 91], [93], [10]]) = results (.of [[123, 125, 10, 91, 93, 10]]) :=
  (results_of_chunks (by decide)).1 _ (by decide) rfl

end Credman.Mcp
