import PoolStudy.EpollClient.Model

/-! # The client of the epoll server: the lines

Whatever the portions in which the bytes of `stdin` arrive and in which the `FILE` reads them, the client sends the
lines of `stdin`, in their order, each once, and stops at the first `q` (`client_sends_lines`). A line is what `fgets`
returns: it ends with a newline, or has `MAXLINE - 1` bytes, or is the rest at the end of `stdin`. What is sent of it
is its bytes up to the first zero without the last one, which is the newline only if there is one.

`select` knows nothing of the buffer of the `FILE`. When it waits for more, the lines that have been read and not been
sent are those in that buffer. -/

namespace PoolStudy.EpollClient.Lines

open PoolStudy.Lib.Transition PoolStudy.Lib.Sockets PoolStudy.Lib.Pieces PoolStudy.EpollClient.Model

/-- **The lines** of a stream, with what is left if the stream has ended. -/
def lines (l : List Byte) (ended : Bool) : List (List Byte) :=
  (cut full [] l).1 ++ if ended = true ∧ (cut full [] l).2 ≠ [] then [(cut full [] l).2] else []

theorem lines_open (l : List Byte) : lines l false = (cut full [] l).1 := by simp [lines]

/-- The lines of a stream that has ended make it up. -/
theorem lines_flatten (l : List Byte) : (lines l true).flatten = l := by
  have h : (cut full [] l).1.flatten ++ (cut full [] l).2 = l := cut_flatten [] l
  unfold lines
  split_ifs with hr
  · rw [List.flatten_append, List.flatten_singleton, h]
  · have hnil : (cut full [] l).2 = [] := by simpa using hr
    rw [List.append_nil]
    rwa [hnil, List.append_nil] at h

/-- There are no fewer lines at the end. -/
theorem lines_close (l : List Byte) (b : Bool) : lines l b <+: lines l true := by
  cases b with
  | true => exact List.prefix_rfl
  | false =>
    rw [lines_open]
    exact List.prefix_append _ _

/-- More of the stream, more lines. -/
theorem lines_append (l m : List Byte) : lines l false <+: lines (l ++ m) false := by
  rw [lines_open, lines_open, cut_append]
  exact List.prefix_append _ _

/-! ### Where the client is in `stdin` -/

section Reads

variable {s : Stream Byte} {file : List Byte} {ps : List (List Byte)} {acc : List Byte}

/-- All lines have been taken, the one at the end included. -/
structure Over (s : Stream Byte) (file : List Byte) (ps : List (List Byte)) : Prop where
  eof : s.eof = true
  file : file = []
  buffer : s.buffer = []
  taken : ps = lines s.received true

/-- **The lines `ps` have been taken**, and `acc` of the next one. -/
def Reads (s : Stream Byte) (file : List Byte) (ps : List (List Byte)) (acc : List Byte) : Prop :=
  Reading full s.received ps acc (file ++ s.buffer) ∨ (acc = [] ∧ Over s file ps)

theorem Reads.lines (h : Reads s file ps acc) : ps <+: lines s.received s.eof := by
  rcases h with h | ⟨-, h⟩
  · rw [Lines.lines, h.pieces, List.append_assoc]
    exact List.prefix_append _ _
  · have htaken := h.taken
    rw [← h.eof] at htaken
    exact htaken ▸ List.prefix_rfl

/-- What happens on `stdin` comes behind. -/
theorem Reads.arrive (h : Reads s file ps acc) (a : Arrival Byte) : Reads (s.arrive a) file ps acc := by
  cases a with
  | data l =>
    simp only [Stream.arrive]
    split_ifs with hend
    · exact h
    · rcases h with h | ⟨-, h⟩
      · have hr := h.arrive l
        rw [List.append_assoc] at hr
        exact Or.inl hr
      · simp [h.eof] at hend
  | close => exact h.imp id fun h => ⟨h.1, rfl, h.2.file, h.2.buffer, h.2.taken⟩
  | reset => exact h.imp id fun h => ⟨h.1, h.2.eof, h.2.file, h.2.buffer, h.2.taken⟩

/-- `fgets` takes a byte. -/
theorem Reads.take {b : Byte} (h : Reads s (b :: file) ps acc) :
    (full (acc ++ [b]) = true → Reads s file (ps ++ [acc ++ [b]]) []) ∧
      (full (acc ++ [b]) = false → Reads s file ps (acc ++ [b])) := by
  rcases h with h | ⟨-, h⟩
  · exact ⟨fun hfull => Or.inl (h.take.1 hfull), fun hfull => Or.inl (h.take.2 hfull)⟩
  · cases h.file

/-- The `FILE` is filled. -/
theorem Reads.fill (h : Reads s [] ps acc) (k : ℕ) :
    Reads { s with buffer := s.buffer.drop k } (s.buffer.take k) ps acc := by
  rcases h with h | ⟨hb, h⟩
  · refine Or.inl ?_
    rw [List.take_append_drop]
    exact h
  · exact Or.inr ⟨hb, h.eof, by simp [h.buffer], by simp [h.buffer], h.taken⟩

/-- At the end of `stdin` all has been taken. -/
theorem Reads.last (h : Reads s [] ps acc) (hb : s.buffer = []) :
    (acc = [] → ps = Lines.lines s.received true) ∧ (acc ≠ [] → ps ++ [acc] = Lines.lines s.received true) := by
  rcases h with h | ⟨hnil, h⟩
  · rw [hb] at h
    have hp := h.pieces
    simp only [cut, List.append_nil] at hp
    refine ⟨fun hacc => ?_, fun hacc => ?_⟩
    · simp [Lines.lines, hp, hacc]
    · simp [Lines.lines, hp, hacc]
  · exact ⟨fun _ => h.taken, fun hacc => absurd hnil hacc⟩

theorem prefix_arrive (h : ps <+: lines s.received s.eof) (a : Arrival Byte) :
    ps <+: lines (s.arrive a).received (s.arrive a).eof := by
  cases a with
  | data l =>
    simp only [Stream.arrive]
    split_ifs with hend
    · exact h
    · have heof : s.eof = false := by
        cases he : s.eof with
        | true => simp [he] at hend
        | false => rfl
      rw [heof] at h
      show ps <+: lines (s.received ++ l) s.eof
      rw [heof]
      exact h.trans (lines_append _ _)
  | close => exact h.trans (lines_close _ _)
  | reset => exact h

end Reads

/-! ### The loop -/

/-- What holds where the loop is. -/
def AtLoc (s : Stream Byte) (file : List Byte) (taken : List (List Byte)) : Loc → Prop
  | .select | .recv _ => Reads s file taken []
  | .fgets buf => Reads s file taken buf
  | .got buf => Reads s file (taken ++ [buf]) []
  | .quit buf => taken ++ [buf] <+: lines s.received s.eof ∧ message buf = quitLine
  | .ended => taken <+: lines s.received s.eof ∧
      (s.error = false → s.eof = true ∧ taken = lines s.received true)
  | .closed | .exited | .outside => taken <+: lines s.received s.eof

section AtLoc

variable {s : Stream Byte} {file : List Byte} {taken : List (List Byte)} {l : Loc}

/-- The lines taken so far are lines. -/
theorem AtLoc.taken_lines (h : AtLoc s file taken l) : taken <+: lines s.received s.eof := by
  cases l with
  | select | recv | fgets => exact Reads.lines h
  | got buf => exact (List.prefix_append _ _).trans (Reads.lines h)
  | quit buf => exact (List.prefix_append _ _).trans h.1
  | ended => exact h.1
  | closed | exited | outside => exact h

theorem AtLoc.arrive (h : AtLoc s file taken l) (a : Arrival Byte) : AtLoc (s.arrive a) file taken l := by
  cases l with
  | select | recv | fgets | got => exact Reads.arrive h a
  | quit buf => exact ⟨prefix_arrive h.1 a, h.2⟩
  | ended =>
    refine ⟨prefix_arrive h.1 a, ?_⟩
    cases a with
    | data l =>
      simp only [Stream.arrive]
      split_ifs with hend
      · exact h.2
      · intro herr
        obtain ⟨heof, -⟩ := h.2 herr
        simp [heof] at hend
    | close => exact fun herr => ⟨rfl, (h.2 herr).2⟩
    | reset => exact fun herr => (by cases herr)
  | closed | exited | outside => exact prefix_arrive h a

end AtLoc

/-- **The client**: what has been sent are the lines taken, and `stdin` is where the loop says. -/
structure Inv (c : State) : Prop where
  sent : c.sent = c.taken.map message
  clean : ∀ p ∈ c.taken, string p ≠ [] ∧ message p ≠ quitLine
  loc : AtLoc c.stdin c.file c.taken c.loc

/-- **A step of the loop.** -/
theorem Inv.loop {x : Input} {c c' : State} (h : Inv c) (hs : LoopStep x c c') : Inv c' := by
  have hloc := h.loc
  have htaken := hloc.taken_lines
  cases hs with
  | stop hl =>
    refine ⟨h.sent, h.clean, ?_⟩
    rcases hl with rfl | rfl | rfl <;> exact htaken
  | announced hl hl' =>
    have hreads : Reads c.stdin c.file c.taken [] := by
      rcases hl with hl | ⟨b, hl⟩ <;> rw [hl] at hloc <;> exact hloc
    refine ⟨h.sent, h.clean, ?_⟩
    rcases hl' with rfl | ⟨b, rfl⟩ | rfl <;> exact hreads
  | @take buf file b hl hf =>
    rw [hl, hf] at hloc
    obtain ⟨h1, h2⟩ := Reads.take hloc
    refine ⟨h.sent, h.clean, ?_⟩
    cases hfull : full (buf ++ [b]) with
    | true => exact h1 hfull
    | false => exact h2 hfull
  | failed he =>
    refine ⟨h.sent, h.clean, htaken, fun herr => ?_⟩
    have herr : c.stdin.error = false := herr
    rw [he] at herr
    cases herr
  | ended hl hf hb he =>
    rw [hl, hf] at hloc
    exact ⟨h.sent, h.clean, htaken, fun _ => ⟨he, (Reads.last hloc hb).1 rfl⟩⟩
  | last hl hf hb he hne =>
    rw [hl, hf] at hloc
    exact ⟨h.sent, h.clean, Or.inr ⟨rfl, he, hf, hb, (Reads.last hloc hb).2 hne⟩⟩
  | fill hl hf =>
    rw [hl, hf] at hloc
    refine ⟨h.sent, h.clean, ?_⟩
    show AtLoc _ _ _ c.loc
    rw [hl]
    exact Reads.fill hloc _
  | quit hl hs hq =>
    rw [hl] at hloc
    exact ⟨h.sent, h.clean, Reads.lines hloc, hq⟩
  | @send buf hl hs hq =>
    rw [hl] at hloc
    refine ⟨?_, fun p hp => ?_, hloc⟩
    · show c.sent ++ [message buf] = (c.taken ++ [buf]).map message
      rw [h.sent, List.map_append, List.map_singleton]
    · rcases List.mem_append.mp hp with hp | hp
      · exact h.clean p hp
      · rw [List.mem_singleton.mp hp]
        exact ⟨hs, hq⟩

theorem inv_reach {bufSize : ℕ} {c : State} (h : Reach (client bufSize) anyStep c) : Inv c := by
  refine Reach.induct (I := Inv) ?_ ?_ h
  · rintro c rfl
    exact ⟨rfl, fun p hp => (by cases hp), Or.inl (Reading.start [])⟩
  · intro c a c' _ hi _ hn
    cases a with
    | stdin a =>
      cases hn
      exact ⟨hi.sent, hi.clean, hi.loc.arrive a⟩
    | conn a =>
      cases hn
      exact ⟨hi.sent, hi.clean, hi.loc⟩
    | loop x => exact hi.loop (loopStep_cases hn)

/-- **The client sends the lines of `stdin`.** In every run, whatever arrives on `stdin` and on the connection and in
whatever portions it is read: the messages sent are the first lines of `stdin`, in their order and each once, none of
them `q`. The lines make up `stdin`, and all but one at its end are full. The client quits at the line behind them,
which is `q`; if `fgets` returns nothing and there was no error, all lines have been sent. When `select` has nothing to
report of `stdin`, the lines that have arrived and not been sent are those that the buffer of the `FILE` holds. -/
theorem client_sends_lines {bufSize : ℕ} {c : State} (h : Reach (client bufSize) anyStep c) :
    c.sent = ((lines c.stdin.received c.stdin.eof).take c.sent.length).map message ∧
      (∀ p ∈ (lines c.stdin.received c.stdin.eof).take c.sent.length, string p ≠ [] ∧ message p ≠ quitLine) ∧
      (lines c.stdin.received true).flatten = c.stdin.received ∧
      (∀ p ∈ lines c.stdin.received false, full p = true) ∧
      (∀ buf, c.loc = .quit buf →
        (lines c.stdin.received c.stdin.eof)[c.sent.length]? = some buf ∧ message buf = quitLine) ∧
      (c.loc = .ended → c.stdin.error = false → c.sent = (lines c.stdin.received true).map message) ∧
      (c.loc = .select → c.stdin.mask.any = false →
        (lines c.stdin.received c.stdin.eof).drop c.sent.length = (cut full [] c.file).1) := by
  have hi := inv_reach h
  have hlen : c.sent.length = c.taken.length := by rw [hi.sent, List.length_map]
  have htake : (lines c.stdin.received c.stdin.eof).take c.taken.length = c.taken :=
    (List.prefix_iff_eq_take.mp hi.loc.taken_lines).symm
  rw [hlen, htake]
  refine ⟨hi.sent, hi.clean, lines_flatten _, fun p hp => full_of_mem (lines_open _ ▸ hp), fun buf hl => ?_,
    fun hl herr => ?_, fun hl hidle => ?_⟩
  · have hloc := hi.loc
    rw [hl] at hloc
    obtain ⟨⟨r, hr⟩, hq⟩ := hloc
    refine ⟨?_, hq⟩
    rw [← hr]
    simp
  · have hloc := hi.loc
    rw [hl] at hloc
    rw [hi.sent, (hloc.2 herr).2]
  · have hloc := hi.loc
    rw [hl] at hloc
    simp only [Stream.mask, Mask.any, Bool.or_eq_false_iff, Bool.not_eq_false'] at hidle
    obtain ⟨⟨⟨⟨hb, heof⟩, -⟩, -⟩, -⟩ := hidle
    rcases hloc with hr | ⟨-, ho⟩
    · rw [List.isEmpty_iff.mp hb, List.append_nil] at hr
      rw [heof, lines_open, hr.pieces, List.drop_left]
    · rw [ho.eof] at heof
      cases heof

/-- Two lines arrive together: the `FILE` reads both, `fgets` returns the first one, and the other one stays. -/
def twoLinesRun : List Act :=
  [.stdin (.data [104, 105, newline, 111, newline]), .loop {}, .loop { count := 5 }, .loop {}, .loop {}, .loop {},
    .loop {}]

theorem client_sends_lines_twoLinesRun : ∃ c : State, c.loc = .select ∧ c.sent = [[104, 105]] ∧
    (lines c.stdin.received c.stdin.eof).drop c.sent.length = [[111, newline]] := by
  obtain ⟨c, hc, hp⟩ := reach_of_run (client 4096) anyStep_of_test twoLinesRun
    (fun c => decide (c.loc = .select ∧ c.sent = [[104, 105]] ∧ c.stdin.mask.any = false ∧
      (cut full [] c.file).1 = [[111, newline]])) rfl (by decide)
  rw [decide_eq_true_eq] at hp
  obtain ⟨hl, hsent, hidle, hcut⟩ := hp
  exact ⟨c, hl, hsent, ((client_sends_lines hc).2.2.2.2.2.2 hl hidle).trans hcut⟩

end PoolStudy.EpollClient.Lines
