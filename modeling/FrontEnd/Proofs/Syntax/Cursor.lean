import FrontEnd.Proofs.Syntax.Consumption
import FrontEnd.Proofs.Syntax.Recognition

/-!
# A reader is a list with a cursor

* `Request` : what can be done with a reader; `TokenReader.perform`, `TokenReader.run` : a request, and a sequence of
  them to a new reader;
* `Request.sources` : the sources that are added before anything is read, the only ones that count;
* `TokenReader.StandsAt` : the stream that a reader reads, and its cursor; `TokenReader.StandsAt.perform` : where a
  request leaves the cursor, `TokenReader.standsAt_foldl` : where a sequence does;
* `TokenReader.run_eq_cursor` : every answer is that of one list of tokens with a cursor, and reading a program never
  moves it past the last of them;
* `TokenReader.peek_wraps` : a distance that leads around to a token which is used up.
-/

namespace FrontEnd

/-! ## Streams without their first tokens -/

namespace TokenStream

theorem token_past (s : TokenStream) (n k : Nat) : (s.past n).token k = s.token (n + k) := by
  show (s.ahead.drop n).getD k s.last = s.ahead.getD (n + k) s.last
  rw [List.getD_eq_getElem?_getD, List.getD_eq_getElem?_getD, List.getElem?_drop]

theorem toList_prepend (s : TokenStream) (ts : List Token) : (s.prepend ts).toList = ts ++ s.toList :=
  List.append_assoc ..

theorem current_past (s : TokenStream) (n : Nat) : (s.past n).current = s.token n := by
  rw [← token_zero, token_past, Nat.add_zero]

theorem past_of_le {s : TokenStream} {n : Nat} (h : s.size ≤ n) : s.past n = ⟨[], s.endLoc⟩ := by
  rw [past, List.drop_eq_nil_of_le h]

theorem past_min (s : TokenStream) (n : Nat) : s.past (min n s.size) = s.past n := by
  rcases Nat.le_total n s.size with h | h
  · rw [Nat.min_eq_left h]
  · rw [Nat.min_eq_right h, past_of_le (Nat.le_refl _), past_of_le h]

theorem toList_past {s : TokenStream} {n : Nat} (h : n ≤ s.size) : (s.past n).toList = s.toList.drop n :=
  (List.drop_append_of_le_length h).symm

theorem length_toList (s : TokenStream) : s.toList.length = s.size + 1 := by
  simp [toList, size]

/-- What is left of a stream is the stream without its first tokens. -/
theorem Leaves.eq_past {s rest : TokenStream} (h : s.Leaves rest) : ∃ n ≤ s.size, rest = s.past n := by
  obtain ⟨used, rfl, -⟩ := h
  refine ⟨used.length, ?_, ?_⟩
  · rw [size, prepend, List.length_append]
    exact Nat.le_add_right _ _
  · rw [past, prepend, List.drop_left]

theorem size_past (s : TokenStream) (n : Nat) : (s.past n).size = s.size - n := List.length_drop

theorem past_past (s : TokenStream) (m n : Nat) : (s.past m).past n = s.past (m + n) := by
  rw [past, past, past, List.drop_drop]

end TokenStream

/-- At the end of the input stands the program without statements. -/
theorem readProgram_atEnd (loc : Location) : readProgram ⟨[], loc⟩ = .ok (.block loc [] []) := by
  unfold readProgram Parse.program
  rw [Parse.statements]
  rfl

/-! ## Requests -/

/-- What can be done with a reader. -/
inductive Request where
  | push (s : Source)
  | peek (k : UInt64)
  | next
  | atEnd
  | tokens
  | readProgram
deriving DecidableEq

/-- The sources that are added before anything is read. -/
def Request.sources : List Request → List Source
  | push s :: requests => s :: sources requests
  | _ => []

/-- How many tokens a reading that is not that of a program uses up. -/
def Request.uses (request : Request) : Nat := if request = next then 1 else 0

namespace Request

theorem sources_nil : sources [] = [] := by
  rw [sources]
  rintro s requests ⟨⟩

theorem sources_cons {request : Request} {requests : List Request} (h : ∀ s, request ≠ push s) :
    sources (request :: requests) = [] := by
  rw [sources]
  rintro s rest heq
  exact h s (List.cons.inj heq).1

theorem count_next_cons (request : Request) (requests : List Request) :
    (request :: requests).count next = request.uses + requests.count next := by
  rw [List.count_cons, uses, Nat.add_comm]
  simp only [beq_iff_eq]

theorem uses_push (s : Source) : (push s).uses = 0 := if_neg nofun

end Request

namespace TokenReader

/-- The reader after a request. -/
def perform (r : TokenReader) : Request → TokenReader
  | .push s => r.push s
  | .peek k => (r.peek k).2
  | .next => r.next.2
  | .atEnd => r.atEnd.2
  | .tokens => r.tokens.2
  | .readProgram => r.readProgram.2

/-- A new reader after requests, one after the other. -/
def run (requests : List Request) : TokenReader := requests.foldl perform {}

/-- The reader reads the tokens of `whole`, and `i` of them are used up. -/
structure StandsAt (whole : TokenStream) (i : Nat) (r : TokenReader) : Prop where
  le : i ≤ whole.toList.length
  opening : r.opening = (whole, i)

section
variable {r : TokenReader} {whole : TokenStream} {i j : Nat}

theorem StandsAt.whole_eq (h : r.StandsAt whole i) : r.whole = whole := congrArg Prod.fst h.opening

theorem StandsAt.cursor_eq (h : r.StandsAt whole i) : r.cursor = i := congrArg Prod.snd h.opening

theorem StandsAt.rest_eq (h : r.StandsAt whole i) : r.rest = whole.past i := by
  rw [rest, h.whole_eq, h.cursor_eq]

theorem StandsAt.moveTo (h : r.StandsAt whole i) (hj : j ≤ whole.toList.length) : (r.moveTo j).StandsAt whole j where
  le := hj
  opening := by
    rw [TokenReader.moveTo, h.whole_eq]
    rfl

/-- What a reading leaves of the rest is the rest afterwards. -/
theorem StandsAt.leave (h : r.StandsAt whole i) {left : TokenStream} (hleft : r.rest.Leaves left) :
    ∃ j, (r.leave left).StandsAt whole j ∧ i ≤ j ∧ (r.leave left).rest = left := by
  obtain ⟨n, hn, rfl⟩ := hleft.eq_past
  have hsize : r.rest.size - (r.rest.past n).size = n := by
    rw [TokenStream.size_past]
    omega
  have hj : i + n ≤ whole.toList.length := by
    have hle := h.le
    rw [h.rest_eq, TokenStream.size_past] at hn
    rw [whole.length_toList] at hle ⊢
    omega
  have hmoved : (r.leave (r.rest.past n)).StandsAt whole (i + n) := by
    rw [TokenReader.leave, hsize, h.cursor_eq]
    exact h.moveTo hj
  refine ⟨i + n, hmoved, Nat.le_add_right i n, ?_⟩
  rw [hmoved.rest_eq, h.rest_eq, TokenStream.past_past]

/-- A reading opens the stream, and moves the cursor on or leaves it where it is. -/
theorem StandsAt.perform (h : r.StandsAt whole i) {request : Request} (hreading : ∀ s, request ≠ .push s) :
    (r.perform request).opened.isSome ∧ ∃ j, (r.perform request).StandsAt whole j ∧ i ≤ j ∧
      (request ≠ .readProgram → j = min (i + request.uses) whole.toList.length) := by
  have hsame : i = min (i + 0) whole.toList.length := (Nat.min_eq_left h.le).symm
  have hstays : (r.moveTo r.cursor).StandsAt whole i := by
    rw [h.cursor_eq]
    exact h.moveTo h.le
  cases request with
  | push s => exact absurd rfl (hreading s)
  | peek k => exact ⟨rfl, i, hstays, Nat.le_refl i, fun _ => hsame⟩
  | atEnd => exact ⟨rfl, i, hstays, Nat.le_refl i, fun _ => hsame⟩
  | tokens => exact ⟨rfl, i, hstays, Nat.le_refl i, fun _ => hsame⟩
  | next =>
    refine ⟨rfl, min (i + 1) whole.toList.length, ?_, by have := h.le; omega, fun _ => rfl⟩
    show (r.moveTo (min (r.cursor + 1) r.whole.toList.length)).StandsAt _ _
    rw [h.cursor_eq, h.whole_eq]
    exact h.moveTo (Nat.min_le_right _ _)
  | readProgram =>
    obtain ⟨j, hj, hle, -⟩ := h.leave (Parse.program_leaves r.rest)
    exact ⟨rfl, j, hj, hle, fun hne => absurd rfl hne⟩

/-- Once the stream is open, sources that are added do not matter. -/
theorem StandsAt.push (h : r.StandsAt whole i) (hopen : r.opened.isSome) (s : Source) :
    (r.push s).opened.isSome ∧ (r.push s).StandsAt whole i := by
  refine ⟨hopen, h.le, ?_⟩
  obtain ⟨p, hp⟩ := Option.isSome_iff_exists.1 hopen
  rw [← h.opening, TokenReader.opening, TokenReader.opening, TokenReader.push, hp]
  rfl

/-- Requests to a reader whose stream is open move the cursor on, those for the next token by one each. -/
theorem StandsAt.foldl (requests : List Request) (hopen : r.opened.isSome) (h : r.StandsAt whole i) :
    ∃ j, (requests.foldl TokenReader.perform r).StandsAt whole j ∧ i ≤ j ∧
      (.readProgram ∉ requests → j = min (i + requests.count .next) whole.toList.length) := by
  induction requests generalizing r i with
  | nil => exact ⟨i, h, Nat.le_refl i, fun _ => (Nat.min_eq_left h.le).symm⟩
  | cons request requests ih =>
    have hstep : (r.perform request).opened.isSome ∧ ∃ j, (r.perform request).StandsAt whole j ∧ i ≤ j ∧
        (request ≠ .readProgram → j = min (i + request.uses) whole.toList.length) := by
      by_cases hreading : ∀ s, request ≠ .push s
      · exact h.perform hreading
      · obtain ⟨s, rfl⟩ := not_forall_not.1 hreading
        obtain ⟨hopen', hpush⟩ := h.push hopen s
        exact ⟨hopen', i, hpush, Nat.le_refl i, fun _ => (Nat.min_eq_left h.le).symm⟩
    obtain ⟨hopen', j, hj, hij, hmoved⟩ := hstep
    obtain ⟨k, hk, hjk, hcount⟩ := ih hopen' hj
    refine ⟨k, hk, hij.trans hjk, fun hread => ?_⟩
    rw [hcount fun hm => hread (.tail _ hm), hmoved fun heq => hread (heq ▸ .head _), Request.count_next_cons]
    omega

theorem standsAt_new (hnew : r.opened = none) : r.StandsAt (.ofSources r.waiting.reverse) 0 := by
  refine ⟨Nat.zero_le _, ?_⟩
  rw [opening, hnew]
  rfl

/-- The sources that a new reader is given before anything is read are all that it reads. -/
theorem standsAt_foldl (requests : List Request) (hnew : r.opened = none) :
    ∃ i, (requests.foldl perform r).StandsAt (.ofSources (r.waiting.reverse ++ Request.sources requests)) i ∧
      (.readProgram ∉ requests → i = min (requests.count .next)
        (TokenStream.ofSources (r.waiting.reverse ++ Request.sources requests)).toList.length) := by
  induction requests generalizing r with
  | nil =>
    rw [Request.sources_nil, List.append_nil]
    exact ⟨0, standsAt_new hnew, fun _ => (Nat.zero_min _).symm⟩
  | cons request requests ih =>
    by_cases hreading : ∀ s, request ≠ .push s
    · rw [Request.sources_cons hreading, List.append_nil]
      obtain ⟨hopen, j, hj, -, hmoved⟩ := (standsAt_new hnew).perform hreading
      obtain ⟨k, hk, -, hcount⟩ := hj.foldl requests hopen
      refine ⟨k, hk, fun hread => ?_⟩
      rw [hcount fun hm => hread (.tail _ hm), hmoved fun heq => hread (heq ▸ .head _), Request.count_next_cons]
      omega
    · obtain ⟨s, rfl⟩ := not_forall_not.1 hreading
      have hsources : (r.push s).waiting.reverse ++ Request.sources requests =
          r.waiting.reverse ++ Request.sources (.push s :: requests) := by
        rw [push, List.reverse_cons, List.append_assoc]
        rfl
      obtain ⟨i, hi, hcount⟩ := ih (r := r.push s) hnew
      rw [hsources] at hi hcount
      refine ⟨i, hi, fun hread => ?_⟩
      rw [hcount fun hm => hread (.tail _ hm), Request.count_next_cons, Request.uses_push, Nat.zero_add]

end

/-! ## Answers -/

variable {r : TokenReader} {whole : TokenStream} {i : Nat}

/-- The cursor is at a token, or behind the end mark. -/
theorem StandsAt.token_eq (h : r.StandsAt whole i) (k : Nat) :
    whole.toList[min k (whole.toList.length - 1)]? = some (r.whole.token k) := by
  rw [whole.length_toList, Nat.add_sub_cancel, h.whole_eq]
  exact whole.getElem?_toList k

theorem StandsAt.peek (h : r.StandsAt whole i) (k : UInt64) :
    whole.toList[min ((i + k.toNat) % UInt64.size) (whole.toList.length - 1)]? = some (r.peek k).1 := by
  have hplace : (UInt64.ofNat r.cursor + k).toNat = (i + k.toNat) % UInt64.size := by
    rw [h.cursor_eq, UInt64.toNat_add, UInt64.toNat_ofNat', Nat.mod_add_mod]
  rw [h.token_eq, TokenReader.peek, hplace]

theorem StandsAt.next (h : r.StandsAt whole i) : whole.toList[min i (whole.toList.length - 1)]? = some r.next.1 := by
  rw [h.token_eq, TokenReader.next, h.cursor_eq]

theorem StandsAt.atEnd (h : r.StandsAt whole i) :
    r.atEnd.1 = true ↔ ∃ t, whole.toList[min i (whole.toList.length - 1)]? = some t ∧ t.kind = .endOfInput := by
  rw [h.token_eq, h.whole_eq, ← TokenStream.current_past, ← h.rest_eq]
  simp only [Option.some.injEq, exists_eq_left']
  exact beq_iff_eq

theorem StandsAt.readProgram_rest (h : r.StandsAt whole i) : r.readProgram.2.rest = (Parse.program r.rest).left := by
  obtain ⟨-, -, -, hrest⟩ := h.leave (Parse.program_leaves r.rest)
  exact hrest

theorem StandsAt.used (h : r.StandsAt whole i) : ∃ used,
    whole.toList.drop (min i (whole.toList.length - 1)) = used ++ r.readProgram.2.rest.toList ∧
      ∀ t ∈ used, t.kind ≠ .endOfInput := by
  obtain ⟨used, hrest, hused⟩ := Parse.program_leaves r.rest
  refine ⟨used, ?_, hused⟩
  rw [whole.length_toList, Nat.add_sub_cancel, ← TokenStream.toList_past (Nat.min_le_right _ _), TokenStream.past_min,
    ← h.rest_eq, h.readProgram_rest, ← TokenStream.toList_prepend, ← hrest]

/-- A program that is accepted leaves nothing but the end mark. -/
theorem StandsAt.accepted (h : r.StandsAt whole i) (hwhole : ∀ t ∈ whole.ahead, t.kind ≠ .endOfInput) {e : Expr}
    (he : r.readProgram.1 = .ok e) : r.readProgram.2.rest.ahead = [] := by
  have hread : FrontEnd.readProgram r.rest = .ok e := he
  unfold FrontEnd.readProgram at hread
  cases hp : Parse.program r.rest with
  | error failure =>
    rw [hp] at hread
    cases hread
  | ok p =>
    have hleft : r.readProgram.2.rest = p.rest := by
      rw [h.readProgram_rest, hp]
      rfl
    have hleaves := Parse.program_leaves r.rest
    rw [hp] at hleaves
    obtain ⟨used, hused, -⟩ := hleaves
    rw [hleft]
    refine Parse.eq_nil_of_kind (fun t ht => hwhole t ?_) (Parse.kind_of_program hp)
    have hmem : t ∈ (whole.past i).ahead := by
      rw [← h.rest_eq, hused]
      exact List.mem_append_right _ ht
    exact List.mem_of_mem_drop hmem

/-- Whatever is done with a new reader, its answers are those of one list with a cursor: the tokens of the sources that
were added before anything was read. The cursor is moved by `next`, past the last token, which marks the end, but no
further, and by reading programs. A look ahead finds the end mark from the end on, as long as its place is a word of 64
bits, and the token at the rest of its place otherwise. Reading a program uses up tokens in front of the mark only,
whatever stands behind it, and once a program has been accepted, the empty one at the mark is read from then on. -/
theorem run_eq_cursor (requests : List Request) :
    let tokens := (TokenStream.ofSources (Request.sources requests)).toList
    let r := run requests
    ∃ i mark, (.readProgram ∉ requests → i = min (requests.count .next) tokens.length) ∧
      tokens[tokens.length - 1]? = some mark ∧ mark.kind = .endOfInput ∧
      tokens[min i (tokens.length - 1)]? = some r.next.1 ∧
      (∀ k, i + k.toNat < UInt64.size → tokens[min (i + k.toNat) (tokens.length - 1)]? = some (r.peek k).1) ∧
      (∀ k, UInt64.size ≤ i + k.toNat →
        tokens[min ((i + k.toNat) % UInt64.size) (tokens.length - 1)]? = some (r.peek k).1) ∧
      (r.atEnd.1 = true ↔ ∃ t, tokens[min i (tokens.length - 1)]? = some t ∧ t.kind = .endOfInput) ∧
      r.tokens.1 = tokens ∧
      (∃ used, tokens.drop (min i (tokens.length - 1)) = used ++ r.readProgram.2.rest.toList ∧
        ∀ t ∈ used, t.kind ≠ .endOfInput) ∧
      (∀ behind, FrontEnd.readProgram (r.rest.marked behind) = r.readProgram.1 ∧
        (Parse.program (r.rest.marked behind)).left = r.readProgram.2.rest.marked behind) ∧
      ∀ e, r.readProgram.1 = .ok e → ∀ later,
        (run (requests ++ .readProgram :: later)).readProgram.1 = .ok (.block mark.loc [] []) := by
  dsimp only
  obtain ⟨i, hi, hcount⟩ := standsAt_foldl (r := {}) requests rfl
  have hkinds := TokenStream.kind_of_mem_ofSources (Request.sources requests)
  change (run requests).StandsAt (.ofSources (Request.sources requests)) i at hi
  change _ → i = min _ (TokenStream.ofSources (Request.sources requests)).toList.length at hcount
  generalize TokenStream.ofSources (Request.sources requests) = whole at hi hcount hkinds
  have hmark : whole.toList[whole.toList.length - 1]? = some whole.last := by
    rw [whole.length_toList, Nat.add_sub_cancel]
    exact List.getElem?_concat_length
  refine ⟨i, whole.last, hcount, hmark, rfl, hi.next, fun k hk => ?_, fun k _ => hi.peek k, hi.atEnd, ?_, hi.used, ?_,
    ?_⟩
  · rw [← hi.peek k, Nat.mod_eq_of_lt hk]
  · rw [TokenReader.tokens, hi.whole_eq]
  · intro behind
    rw [hi.readProgram_rest]
    exact Parse.program_marked _ behind
  · intro e he later
    have hreading : ∀ s, Request.readProgram ≠ .push s := nofun
    obtain ⟨hopen, j, hj, -, -⟩ := hi.perform hreading
    have hend : whole.size ≤ j := by
      have hsize : ((run requests).perform .readProgram).rest.size = 0 :=
        congrArg List.length (hi.accepted hkinds he)
      rw [hj.rest_eq, TokenStream.size_past] at hsize
      omega
    obtain ⟨k, hk, hjk, -⟩ := hj.foldl later hopen
    have hrun : run (requests ++ .readProgram :: later) =
        later.foldl perform ((run requests).perform .readProgram) := List.foldl_append
    show FrontEnd.readProgram _ = _
    rw [hrun, hk.rest_eq, TokenStream.past_of_le (hend.trans hjk), readProgram_atEnd]
    rfl

/-- A source that comes too late, and a program that is read twice. -/
theorem run_eq_cursor_twice :
    Request.readProgram ∉ ([.push ⟨"1", "a"⟩, .peek 7, .push ⟨"2", "b"⟩] : List Request) ∧
      (run [.push ⟨"1", "a"⟩, .peek 7, .push ⟨"2", "b"⟩]).readProgram.1 =
        .ok (.block ⟨"a", 1, 1⟩ [] [.literal ⟨"a", 1, 1⟩ (.int 1)]) ∧
      (run ([.push ⟨"1", "a"⟩, .peek 7, .push ⟨"2", "b"⟩] ++ .readProgram :: [.next])).readProgram.1 =
        .ok (.block ⟨"a", 1, 2⟩ [] []) := by
  have hfirst : (run [.push ⟨"1", "a"⟩, .peek 7, .push ⟨"2", "b"⟩]).readProgram.1 =
      .ok (.block ⟨"a", 1, 1⟩ [] [.literal ⟨"a", 1, 1⟩ (.int 1)]) := by with_unfolding_all rfl
  obtain ⟨i, mark, -, hmark, -, -, -, -, -, -, -, -, hlater⟩ :=
    run_eq_cursor [.push ⟨"1", "a"⟩, .peek 7, .push ⟨"2", "b"⟩]
  have htokens : (TokenStream.ofSources (Request.sources
      [.push ⟨"1", "a"⟩, .peek 7, .push ⟨"2", "b"⟩])).toList =
        [⟨.integer, "1", ⟨"a", 1, 1⟩⟩, ⟨.endOfInput, "<EOF>", ⟨"a", 1, 2⟩⟩] := by with_unfolding_all rfl
  rw [htokens] at hmark
  obtain rfl := Option.some.inj hmark
  exact ⟨by decide, hfirst, hlater _ hfirst [.next]⟩

/-- The greatest distance leads from behind the first token back to it, where the end mark is due. -/
theorem peek_wraps :
    let requests : List Request := [.push ⟨"a b", "m"⟩, .next]
    let tokens := (TokenStream.ofSources (Request.sources requests)).toList
    let k : UInt64 := 0xffffffffffffffff
    tokens[min (requests.count .next + k.toNat) (tokens.length - 1)]? = some ⟨.endOfInput, "<EOF>", ⟨"m", 1, 4⟩⟩ ∧
      ((run requests).peek k).1 = ⟨.identifier, "a", ⟨"m", 1, 1⟩⟩ := by
  with_unfolding_all exact ⟨rfl, rfl⟩

end TokenReader
end FrontEnd
