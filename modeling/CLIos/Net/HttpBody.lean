import CLIos.Net.Http

/-!
# The HTTP client: the reading loop

The loop of `L_HTTP_REQUEST` that fills the body buffer (components/NET/net_http.c),
over any `esp_http_client_read`: all that is used is that a read delivers no more
than it was asked for.  The sums are `int`s, and one that overflows has no defined
effect, like a store outside the block.

Each round but the last raises `total`, and what is asked for is what is left of the
block, so the loop ends and stays inside.  `HttpTurn.readLoop` is this loop over the
reads of a turn.
-/

namespace CLIos

open CMem LuaApi

/-- `esp_http_client_read`: the number of the call, where the bytes go, and how many are
asked for; `none` is an error. -/
abbrev HttpReader := Nat → Nat → Int → Option (List Char)

/-- A read delivers at most what it is asked for. -/
def ReadContract (read : HttpReader) : Prop :=
  ∀ i total asked bytes, read i total asked = some bytes → bytes.length ≤ asked.toNat

/-- A call of `esp_http_client_read`, and `total` before it. -/
structure BodyRound where
  total : Nat
  asked : Int
  got : Option (List Char)
deriving DecidableEq

/-- The bytes that a call has delivered. -/
def BodyRound.bytes (r : BodyRound) : List Char := r.got.getD []

/-- `while((r = esp_http_client_read(h, buf+total, content_len-total)) > 0) total += r;` -/
def bodyLoop (read : HttpReader) (n : Nat) : Nat → Nat → Nat → CArray Char (n + 1) →
    Option (List BodyRound × Nat × CArray Char (n + 1))
  | 0, _, _, _ => none
  | fuel + 1, i, total, buf =>
    (checkedInt (n - total)).bind fun asked =>
    let round : BodyRound := ⟨total, asked, read i total asked⟩
    if 0 < round.bytes.length then
      (buf.memcpy total round.bytes).bind fun buf =>
      (checkedInt (total + round.bytes.length)).bind fun total =>
      (bodyLoop read n fuel (i + 1) total.toNat buf).map fun r => (round :: r.1, r.2)
    else some ([round], total, buf)

/-- The calls, and the string that `lua_pushlstring` makes of the block. -/
def httpBody (read : HttpReader) (n fuel : Nat) (block : CArray Char (n + 1)) :
    Option (List BodyRound × List Char) :=
  (checkedInt (n + 1)).bind fun _ =>
  (bodyLoop read n fuel 0 0 block).bind fun (rounds, total, buf) =>
  (buf.store total '\x00').map fun buf => (rounds, buf.first total)

/-! ## One round -/

/-- The round that comes when `total` bytes are stored. -/
def bodyRound (read : HttpReader) (n i total : Nat) : BodyRound :=
  ⟨total, n - total, read i total (n - total)⟩

/-- The calls of the loop from the `i`-th on, when `total` bytes are stored: each asks
for what is left of `n` bytes behind those of the calls before it, and the first that
delivers nothing is the last. -/
structure ReadsFrom (read : HttpReader) (n i total : Nat) (rounds : List BodyRound) : Prop where
  total_eq : ∀ j r, rounds[j]? = some r →
    r.total = total + ((rounds.take j).flatMap BodyRound.bytes).length
  asked : ∀ r ∈ rounds, r.asked = n - r.total
  got : ∀ j r, rounds[j]? = some r → r.got = read (i + j) r.total r.asked
  more : ∀ j r, rounds[j]? = some r → (0 < r.bytes.length ↔ j + 1 < rounds.length)
  ne_nil : rounds ≠ []

variable {read : HttpReader} {n : Nat}

theorem ReadsFrom.last {i total : Nat} (hzero : ¬ 0 < (bodyRound read n i total).bytes.length) :
    ReadsFrom read n i total [bodyRound read n i total] := by
  have honly : ∀ j r, [bodyRound read n i total][j]? = some r →
      j = 0 ∧ r = bodyRound read n i total := by
    intro j r hj
    rw [List.getElem?_singleton] at hj
    split at hj
    · next hj0 => exact ⟨hj0, (Option.some.inj hj).symm⟩
    · cases hj
  refine ⟨fun j r hj => ?_, fun r hr => ?_, fun j r hj => ?_, fun j r hj => ?_,
    List.cons_ne_nil _ _⟩
  · obtain ⟨rfl, rfl⟩ := honly j r hj
    rfl
  · rw [List.mem_singleton.mp hr]
    rfl
  · obtain ⟨rfl, rfl⟩ := honly j r hj
    rfl
  · obtain ⟨rfl, rfl⟩ := honly j r hj
    exact iff_of_false hzero (Nat.lt_irrefl 1)

theorem ReadsFrom.cons {i total : Nat} {rounds : List BodyRound}
    (hpos : 0 < (bodyRound read n i total).bytes.length)
    (h : ReadsFrom read n (i + 1) (total + (bodyRound read n i total).bytes.length) rounds) :
    ReadsFrom read n i total (bodyRound read n i total :: rounds) := by
  refine ⟨fun j r hj => ?_, fun r hr => ?_, fun j r hj => ?_, fun j r hj => ?_,
    List.cons_ne_nil _ _⟩
  · cases j with
    | zero =>
      obtain rfl := Option.some.inj hj
      rfl
    | succ j =>
      rw [h.total_eq j r hj, List.take_succ_cons, List.flatMap_cons, List.length_append,
        Nat.add_assoc]
  · rcases List.mem_cons.mp hr with rfl | hr
    · rfl
    · exact h.asked r hr
  · cases j with
    | zero =>
      obtain rfl := Option.some.inj hj
      rfl
    | succ j =>
      rw [h.got j r hj, Nat.add_right_comm, Nat.add_assoc]
  · cases j with
    | zero =>
      obtain rfl := Option.some.inj hj
      have hlen := List.length_pos_iff.mpr h.ne_nil
      exact iff_of_true hpos (Nat.succ_lt_succ hlen)
    | succ j =>
      rw [h.more j r hj, List.length_cons]
      exact Nat.succ_lt_succ_iff.symm

theorem bodyRound_le (h : ReadContract read) (i total : Nat) (hle : total ≤ n) :
    total + (bodyRound read n i total).bytes.length ≤ n := by
  unfold bodyRound BodyRound.bytes
  cases hr : read i total (n - total) with
  | none =>
    show total + 0 ≤ n
    exact hle
  | some bytes =>
    have hlen := h _ _ _ _ hr
    show total + bytes.length ≤ n
    omega

section

variable {i total : Nat} {buf : CArray Char (n + 1)}

/-- A round that is not positive is the last one. -/
theorem bodyLoop_last (hn : n < 2147483647) (hle : total ≤ n)
    (hzero : ¬ 0 < (bodyRound read n i total).bytes.length) (fuel : Nat) :
    bodyLoop read n (fuel + 1) i total buf = some ([bodyRound read n i total], total, buf) := by
  unfold bodyLoop
  rw [checkedInt_eq (by omega) (by omega), Option.bind_some]
  exact if_neg hzero

theorem bodyLoop_more (h : ReadContract read) (hn : n < 2147483647) (hle : total ≤ n)
    (hpos : 0 < (bodyRound read n i total).bytes.length) {buf₁ : CArray Char (n + 1)}
    (hbuf : buf.memcpy total (bodyRound read n i total).bytes = some buf₁) (fuel : Nat) :
    bodyLoop read n (fuel + 1) i total buf =
      (bodyLoop read n fuel (i + 1) (total + (bodyRound read n i total).bytes.length) buf₁).map
        fun r => (bodyRound read n i total :: r.1, r.2) := by
  have hbytes := bodyRound_le h i total hle
  have hsum : checkedInt (total + (bodyRound read n i total).bytes.length) =
      some (total + (bodyRound read n i total).bytes.length) :=
    checkedInt_eq (by omega) (by omega)
  conv_lhs => unfold bodyLoop
  rw [checkedInt_eq (by omega) (by omega), Option.bind_some]
  refine (if_pos hpos).trans ?_
  show (buf.memcpy total (bodyRound read n i total).bytes).bind _ = _
  rw [hbuf, Option.bind_some]
  show (checkedInt (total + (bodyRound read n i total).bytes.length)).bind _ = _
  rw [hsum]
  rfl

/-- What holds at the end, if the next round is the last one. -/
theorem bodyLoop_spec_last (hn : n < 2147483647) (hle : total ≤ n)
    (hzero : ¬ 0 < (bodyRound read n i total).bytes.length) {k : Nat} :
    ∃ rounds total' buf',
      (∀ fuel, k < fuel → bodyLoop read n fuel i total buf = some (rounds, total', buf')) ∧
      ReadsFrom read n i total rounds ∧ total' ≤ n ∧ (∀ r ∈ rounds, r.total ≤ n) ∧
      buf'.first total' = buf.first total ++ rounds.flatMap BodyRound.bytes := by
  have hnil : (bodyRound read n i total).bytes = [] := List.length_eq_zero_iff.mp (by omega)
  refine ⟨[bodyRound read n i total], total, buf, fun fuel hfuel => ?_, .last hzero, hle,
    fun r hr => ?_, ?_⟩
  · obtain ⟨fuel, rfl⟩ : ∃ m, fuel = m + 1 := ⟨fuel - 1, by omega⟩
    exact bodyLoop_last hn hle hzero fuel
  · rw [List.mem_singleton.mp hr]
    exact hle
  · rw [List.flatMap_singleton, hnil, List.append_nil]

/-- There is room for what a round has delivered. -/
theorem bodyRound_memcpy (h : ReadContract read) (i : Nat) (hle : total ≤ n)
    (buf : CArray Char (n + 1)) :
    ∃ buf₁, buf.memcpy total (bodyRound read n i total).bytes = some buf₁ :=
  (CArray.memcpy_eq_some_iff buf total _).mpr (Nat.le_succ_of_le (bodyRound_le h i total hle))

end

/-! ## The loop -/

/-- What `k` bytes of room allow: the rest of the loop, the same for every fuel that is
larger than `k`. -/
theorem bodyLoop_spec (h : ReadContract read) (hn : n < 2147483647) (k : Nat) :
    ∀ (i total : Nat) (buf : CArray Char (n + 1)), total ≤ n → n - total ≤ k →
      ∃ rounds total' buf',
        (∀ fuel, k < fuel → bodyLoop read n fuel i total buf = some (rounds, total', buf')) ∧
        ReadsFrom read n i total rounds ∧ total' ≤ n ∧ (∀ r ∈ rounds, r.total ≤ n) ∧
        buf'.first total' = buf.first total ++ rounds.flatMap BodyRound.bytes := by
  induction k with
  | zero =>
    intro i total buf hle hroom
    -- no room is left, and the read delivers nothing
    have hbytes := bodyRound_le h i total hle
    exact bodyLoop_spec_last hn hle (by omega)
  | succ k ih =>
    intro i total buf hle hroom
    have hbytes := bodyRound_le h i total hle
    by_cases hpos : 0 < (bodyRound read n i total).bytes.length
    · obtain ⟨buf₁, hbuf⟩ := bodyRound_memcpy h i hle buf
      obtain ⟨rounds, total', buf', hloop, hreads, hle', hrounds, hfirst⟩ :=
        ih (i + 1) (total + (bodyRound read n i total).bytes.length) buf₁ hbytes (by omega)
      refine ⟨bodyRound read n i total :: rounds, total', buf', fun fuel hfuel => ?_,
        .cons hpos hreads, hle', fun r hr => ?_, ?_⟩
      · obtain ⟨fuel, rfl⟩ : ∃ m, fuel = m + 1 := ⟨fuel - 1, by omega⟩
        rw [bodyLoop_more h hn hle hpos hbuf, hloop fuel (by omega)]
        rfl
      · rcases List.mem_cons.mp hr with rfl | hr
        · exact hle
        · exact hrounds r hr
      · rw [hfirst, CArray.first_memcpy hbuf, List.flatMap_cons, List.append_assoc]
    · exact bodyLoop_spec_last hn hle hpos

/-- **The loop over the body.**  Whatever the reads deliver, the loop ends; it calls
`esp_http_client_read` again as long as that delivers something, for what is left each
time; `total` stays within the content length, nothing is stored outside the block, and
the string is what these reads have delivered, in order. -/
theorem http_body_loop (read : HttpReader) (h : ReadContract read) (n : Nat)
    (hn : n < 2147483647) (block : CArray Char (n + 1)) :
    ∃ rounds text, (∀ fuel, n < fuel → httpBody read n fuel block = some (rounds, text)) ∧
      ReadsFrom read n 0 0 rounds ∧ (∀ r ∈ rounds, r.total ≤ n) ∧ text.length ≤ n ∧
      text = rounds.flatMap BodyRound.bytes := by
  obtain ⟨rounds, total, buf, hloop, hreads, hle, hrounds, hfirst⟩ :=
    bodyLoop_spec h hn n 0 0 block (Nat.zero_le n) (Nat.le_refl n)
  obtain ⟨buf', hstore⟩ := CArray.store_eq_some buf total '\x00' (by omega)
  have htext : buf'.first total = rounds.flatMap BodyRound.bytes := by
    rw [CArray.first_store_of_le hstore (Nat.le_refl total), hfirst, CArray.first_zero,
      List.nil_append]
  refine ⟨rounds, buf'.first total, fun fuel hfuel => ?_, hreads, hrounds, ?_, htext⟩
  · unfold httpBody
    rw [checkedInt_eq (by omega) (by omega), Option.bind_some, hloop fuel hfuel,
      Option.bind_some]
    show (buf.store total '\x00').map _ = _
    rw [hstore, Option.map_some]
  · rw [CArray.length_first _ _ (by omega)]
    exact hle

/-- A server that sends a body in pieces of five bytes. -/
def byFives (body : List Char) : HttpReader := fun _ total asked =>
  some ((body.drop total).take (min 5 asked.toNat))

theorem readContract_byFives (body : List Char) : ReadContract (byFives body) := by
  intro i total asked bytes hread
  cases hread
  rw [List.length_take]
  omega

theorem http_body_loop_hello : ∃ rounds text,
    (∀ fuel, 11 < fuel → httpBody (byFives "hello world".toList) 11 fuel (CArray.fill 12 '?') =
      some (rounds, text)) ∧
    ReadsFrom (byFives "hello world".toList) 11 0 0 rounds ∧ (∀ r ∈ rounds, r.total ≤ 11) ∧
    text.length ≤ 11 ∧ text = rounds.flatMap BodyRound.bytes :=
  http_body_loop _ (readContract_byFives _) 11 (by decide) _

/-! ## The reads of a turn -/

namespace HttpTurn

theorem readContract (t : HttpTurn) : ReadContract t.read := by
  intro i total asked bytes hread
  have hbytes := t.read_getD i total asked
  rw [hread, Option.getD_some] at hbytes
  rw [hbytes, List.length_take]
  omega

/-- `readLoop` is the loop over the reads of the turn. -/
theorem readLoop_eq (t : HttpTurn) (hn : n < 2147483647) (fuel : Nat) :
    ∀ (i total : Nat) (buf : CArray Char (n + 1)), total ≤ n →
      t.readLoop n fuel i total buf = (bodyLoop t.read n fuel i total buf).map fun r =>
        (r.1.map fun round => .read round.asked round.got, r.2) := by
  induction fuel with
  | zero => exact fun _ _ _ _ => rfl
  | succ fuel ih =>
    intro i total buf hle
    by_cases hpos : 0 < (bodyRound t.read n i total).bytes.length
    · obtain ⟨buf₁, hbuf⟩ := bodyRound_memcpy t.readContract i hle buf
      have hrest := ih (i + 1) _ buf₁ (bodyRound_le t.readContract i total hle)
      rw [bodyLoop_more t.readContract hn hle hpos hbuf, Option.map_map]
      unfold readLoop
      refine (if_pos hpos).trans ?_
      show (buf.memcpy total (bodyRound t.read n i total).bytes).bind _ = _
      rw [hbuf, Option.bind_some]
      show (t.readLoop n fuel (i + 1) (total + (bodyRound t.read n i total).bytes.length)
        buf₁).map _ = _
      rw [hrest, Option.map_map]
      rfl
    · rw [bodyLoop_last hn hle hpos]
      unfold readLoop
      exact if_neg hpos

theorem length_lt (t : HttpTurn) (hb : t.Buffered) : t.length.toNat < 2147483647 := by
  have heq : t.length = _ := toInt_eq t.contentLength
  have hne := hb.2.1
  split at heq <;> omega

/-- With a block, what is left of the request is the loop and what its string is used for. -/
theorem fetch_eq (t : HttpTurn) (hb : t.Buffered) (fuel : Nat) (cs : List HttpClientCall) :
    t.fetch fuel cs =
      (httpBody t.read t.length.toNat fuel (t.fresh _)).map fun r =>
        let cs := cs ++ [.malloc (t.length.toNat + 1)] ++
          (r.1.map fun round => .read round.asked round.got) ++ [.cleanup]
        if t.pushed then ⟨cs ++ [.free], .ok (t.status, r.2)⟩ else ⟨cs, .error .memory⟩ := by
  have hn := t.length_lt hb
  have hbad : ¬ (t.length = 2147483647 ∨ t.allocated = false) := by
    rintro (heq | hnull)
    · exact hb.2.1 heq
    · rw [hb.2.2] at hnull
      cases hnull
  unfold fetch httpBody
  rw [if_pos hb.1, if_neg hbad, checkedInt_eq (by omega) (by omega), Option.bind_some]
  simp only
  rw [t.readLoop_eq hn fuel 0 0 _ (Nat.zero_le _)]
  cases bodyLoop t.read t.length.toNat fuel 0 0 (t.fresh _) with
  | none => rfl
  | some r =>
    show (r.2.2.store r.2.1 '\x00').map _ = ((r.2.2.store r.2.1 '\x00').map _).map _
    rw [Option.map_map]
    rfl

end HttpTurn

end CLIos
