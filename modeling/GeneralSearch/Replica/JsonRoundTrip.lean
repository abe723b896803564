import GeneralSearch.Replica.Json

/-! What `ReplicaJson.decode` reads where `ReplicaJson.encode` wrote a value. -/

namespace GeneralSearch.Replica

open GeneralSearch.Utf8 (JavaString)

namespace Json

/-! ### Values as they are read -/

mutual

/-- The value that is read back: every number is a `Long`, every map a `TreeMap`. -/
def canonical : Json → Json
  | integer value => long value.toInt64
  | map entries => map (sorted (canonicalMembers entries))
  | list elements => list (canonicalElements elements)
  | value => value

def canonicalMembers : List (JavaString × Json) → List (JavaString × Json)
  | [] => []
  | (name, value) :: rest => (name, canonical value) :: canonicalMembers rest

def canonicalElements : List Json → List Json
  | [] => []
  | value :: rest => canonical value :: canonicalElements rest

end

mutual

/-- No map of the value has two entries of one key. -/
def Distinct : Json → Prop
  | map entries => (entries.map Prod.fst).Nodup ∧ DistinctMembers entries
  | list elements => DistinctElements elements
  | _ => True

def DistinctMembers : List (JavaString × Json) → Prop
  | [] => True
  | (_, value) :: rest => Distinct value ∧ DistinctMembers rest

def DistinctElements : List Json → Prop
  | [] => True
  | value :: rest => Distinct value ∧ DistinctElements rest

end

theorem canonicalMembers_eq (entries : List (JavaString × Json)) :
    canonicalMembers entries = entries.map fun entry => (entry.1, canonical entry.2) := by
  induction entries with
  | nil => rw [canonicalMembers, List.map_nil]
  | cons entry entries ih => rw [canonicalMembers, ih, List.map_cons]

theorem canonicalElements_eq (elements : List Json) :
    canonicalElements elements = elements.map canonical := by
  induction elements with
  | nil => rw [canonicalElements, List.map_nil]
  | cons element elements ih => rw [canonicalElements, ih, List.map_cons]

theorem distinctMembers_iff {entries : List (JavaString × Json)} :
    DistinctMembers entries ↔ ∀ entry ∈ entries, Distinct entry.2 := by
  induction entries with
  | nil => exact iff_of_true (by rw [DistinctMembers]; trivial) (by simp)
  | cons entry entries ih => rw [DistinctMembers, ih, List.forall_mem_cons]

theorem distinctElements_iff {elements : List Json} :
    DistinctElements elements ↔ ∀ element ∈ elements, Distinct element := by
  induction elements with
  | nil => exact iff_of_true (by rw [DistinctElements]; trivial) (by simp)
  | cons element elements ih => rw [DistinctElements, ih, List.forall_mem_cons]

section

variable {β : Type}

theorem sorted_pairwise (entries : List (JavaString × β)) : (sorted entries).Pairwise Before :=
  haveI : Std.Total (Before (β := β)) := ⟨fun _ _ => le_total (α := List ℕ) _ _⟩
  haveI : IsTrans (JavaString × β) Before := ⟨fun _ _ _ hab hbc => le_trans hab hbc⟩
  List.pairwise_insertionSort _ _

@[simp] theorem sorted_sorted (entries : List (JavaString × β)) :
    sorted (sorted entries) = sorted entries :=
  (sorted_pairwise entries).insertionSort_eq

end

/-- Reading back does not change the text of a value. -/
theorem render_canonical (value : Json) : render (canonical value) = render value := by
  induction value using induct with
  | null => rw [canonical] <;> simp
  | bool => rw [canonical] <;> simp
  | integer v => rw [canonical, render, render, Int32.toInt_toInt64]
  | long => rw [canonical] <;> simp
  | string => rw [canonical] <;> simp
  | map entries ih =>
    have htexts : entries.map (fun entry => (entry.1, render (canonical entry.2))) =
        entries.map fun entry => (entry.1, render entry.2) :=
      List.map_congr_left fun entry he => by rw [ih entry he]
    rw [canonical, canonicalMembers_eq, render, render, renderMembers_eq, renderMembers_eq,
      ← sorted_map, sorted_sorted, List.map_map]
    exact congrArg (fun texts => openBrace :: join true ((sorted texts).map member) ++ [closeBrace])
      htexts
  | list elements ih =>
    have htexts : elements.map (render ∘ canonical) = elements.map render := List.map_congr_left ih
    rw [canonical, canonicalElements_eq, render, render, renderElements_eq, renderElements_eq,
      List.map_map, htexts]

/-! ### Characters that are read -/

/-- What follows a value: no digit, which a number would go on with. -/
def Ended (rest : JavaString) : Prop := ∀ c, rest.head? = some c → digit c = false

theorem ended_cons {c : UInt16} {rest : JavaString} (h : digit c = false) : Ended (c :: rest) := by
  intro _ hc
  cases hc
  exact h

section

variable {α β : Type} {rest : JavaString} {values : ℕ}

theorem parse_bind {p : Parse α} {f : α → Parse β} {parser parser' : Parser} {a : α}
    (h : p parser = .ok (a, parser')) : (p >>= f) parser = f a parser' := by
  show (p parser >>= fun r => f r.1 r.2) = _
  rw [h]
  rfl

@[simp] theorem take_cons (c : UInt16) : take ⟨c :: rest, values⟩ = .ok (c, ⟨rest, values⟩) := rfl

theorem parse_require {condition : Prop} [Decidable condition] {reason : Reason} {message : String}
    {parser : Parser} (h : condition) :
    (require condition reason message : Parse Unit) parser = .ok ((), parser) := by
  rw [require, if_pos h]
  rfl

@[simp] theorem expect_cons (c : UInt16) :
    expect c ⟨c :: rest, values⟩ = .ok ((), ⟨rest, values⟩) :=
  (parse_bind (take_cons c)).trans (parse_require rfl)

@[simp] theorem consume_cons (c : UInt16) :
    consume c ⟨c :: rest, values⟩ = .ok (true, ⟨rest, values⟩) := by
  show (if (c :: rest).head? = some c then _ else _ : Parse Bool) _ = _
  rw [if_pos (show (c :: rest).head? = some c from rfl)]
  rfl

theorem consume_other {c : UInt16} (h : rest.head? ≠ some c) :
    consume c ⟨rest, values⟩ = .ok (false, ⟨rest, values⟩) := by
  show (if rest.head? = some c then _ else _ : Parse Bool) _ = _
  rw [if_neg h]
  rfl

theorem literal_append (tail : JavaString) :
    literal tail ⟨tail ++ rest, values⟩ = .ok ((), ⟨rest, values⟩) := by
  induction tail with
  | nil => rfl
  | cons c tail ih => exact (parse_bind (expect_cons c)).trans ih

/-! ### Strings -/

theorem hexValue_hexDigit {n : ℕ} (h : n < 16) : hexValue (hexDigit n) = some n := by
  have hall : ∀ n : Fin 16, hexValue (hexDigit n) = some n.val := by decide
  exact hall ⟨n, h⟩

/-- One hexadecimal digit of an escape. -/
theorem unicode_cons {n d : ℕ} (hd : d < 16) (code : ℕ) :
    unicode (n + 1) code ⟨hexDigit d :: rest, values⟩ =
      unicode n (code * 16 + d) ⟨rest, values⟩ := by
  rw [unicode, parse_bind (take_cons _), hexValue_hexDigit hd]

/-- The escape of a character is read back. -/
theorem unescape_escape (rest : JavaString) (values : ℕ) (c : UInt16) : ∃ tail, escape c = backslash :: tail ∧
    unescape ⟨tail ++ rest, values⟩ = .ok (c, ⟨rest, values⟩) := by
  unfold escape
  split_ifs with hsame hb hf hn hr ht
  · refine ⟨[c], rfl, (parse_bind (take_cons c)).trans ?_⟩
    rw [if_pos (hsame.imp_right Or.inl)]
    rfl
  · exact ⟨_, rfl, hb ▸ rfl⟩
  · exact ⟨_, rfl, hf ▸ rfl⟩
  · exact ⟨_, rfl, hn ▸ rfl⟩
  · exact ⟨_, rfl, hr ▸ rfl⟩
  · exact ⟨_, rfl, ht ▸ rfl⟩
  · have hc := c.toNat_lt
    refine ⟨_, rfl, (parse_bind (take_cons _)).trans ?_⟩
    show unicode 4 0 ⟨hexDigit _ :: hexDigit _ :: hexDigit _ :: hexDigit _ :: rest, values⟩ = _
    rw [unicode_cons (by omega), unicode_cons (by omega), unicode_cons (by omega),
      unicode_cons (by omega)]
    have hcode : (((0 * 16 + c.toNat / 4096) * 16 + c.toNat / 256 % 16) * 16 +
        c.toNat / 16 % 16) * 16 + c.toNat % 16 = c.toNat := by omega
    rw [hcode, unicode, UInt16.ofNat_toNat]
    rfl

/-- A character that is copied ends no string and starts no escape. -/
theorem plain_iff {c : UInt16} : plain c = true ↔ 32 ≤ c ∧ c < 127 ∧ c ≠ quoteMark ∧ c ≠ backslash := by
  simp [plain, and_assoc]

/-- The loop of `string` reads what the loop of `quote` writes. -/
theorem stringFrom_quoted {value : JavaString} : ∀ {fuel : ℕ} {result : JavaString},
    value.length < fuel → stringFrom fuel result
      ⟨(value.flatMap fun c => if plain c then [c] else escape c) ++ quoteMark :: rest, values⟩ =
        .ok (result ++ value, ⟨rest, values⟩) := by
  induction value with
  | nil =>
    intro fuel result hfuel
    obtain ⟨fuel, rfl⟩ := Nat.exists_eq_succ_of_ne_zero (by omega : fuel ≠ 0)
    rw [List.append_nil]
    exact parse_bind (take_cons quoteMark)
  | cons c value ih =>
    intro fuel result hfuel
    obtain ⟨fuel, rfl⟩ := Nat.exists_eq_succ_of_ne_zero (by omega : fuel ≠ 0)
    have hrest : value.length < fuel := by
      rw [List.length_cons] at hfuel
      omega
    rw [List.flatMap_cons, List.append_assoc, List.append_cons result c value]
    by_cases hplain : plain c = true
    · obtain ⟨hspace, -, hquote, hback⟩ := plain_iff.mp hplain
      rw [if_pos hplain, stringFrom]
      refine (parse_bind (take_cons c)).trans ?_
      rw [if_neg hquote, parse_bind (parse_require hspace), if_neg hback]
      exact ih hrest
    · obtain ⟨tail, htail, hread⟩ := unescape_escape
        ((value.flatMap fun c => if plain c then [c] else escape c) ++ quoteMark :: rest) values c
      rw [if_neg hplain, htail, List.cons_append, stringFrom]
      refine (parse_bind (take_cons backslash)).trans ?_
      rw [if_neg (by decide), parse_bind (parse_require (by decide)), if_pos rfl, parse_bind hread]
      exact ih hrest

theorem scanString_quoted (value : JavaString) :
    scanString ⟨(quoted value).tail ++ rest, values⟩ = .ok (value, ⟨rest, values⟩) := by
  have hlength : value.length ≤ (value.flatMap fun c => if plain c then [c] else escape c).length := by
    rw [List.length_flatMap]
    refine sum_count_ge _ fun c _ => ?_
    obtain ⟨tail, htail, -⟩ := unescape_escape rest values c
    split_ifs <;> simp [htail]
  have htail : (quoted value).tail ++ rest =
      (value.flatMap fun c => if plain c then [c] else escape c) ++ quoteMark :: rest := by
    simp [quoted]
  show stringFrom (((quoted value).tail ++ rest).length + 1) [] _ = _
  rw [htail]
  exact stringFrom_quoted (by simp only [List.length_append, List.length_cons]; omega)

/-! ### Numbers -/

theorem digits_ne_nil (n : ℕ) : digits n ≠ [] := by
  unfold digits
  split_ifs with h
  · exact List.cons_ne_nil _ _
  · intro hnil
    rw [List.map_eq_nil_iff, List.reverse_eq_nil_iff, Nat.digits_eq_nil_iff_eq_zero] at hnil
    exact h hnil

theorem toNat_digit {d : ℕ} (h : d < 10) : (UInt16.ofNat (0x30 + d)).toNat = 0x30 + d :=
  UInt16.toNat_ofNat_of_lt' (by rw [UInt16.size]; omega)

theorem digit_iff {c : UInt16} : digit c = true ↔ 0x30 ≤ c.toNat ∧ c.toNat ≤ 0x39 := by
  simp [digit, UInt16.le_iff_toNat_le]

theorem digits_digit {n : ℕ} {c : UInt16} (h : c ∈ digits n) : digit c = true := by
  unfold digits at h
  split_ifs at h with hn
  · rw [List.mem_singleton.mp h]
    decide
  · obtain ⟨d, hd, rfl⟩ := List.mem_map.mp h
    have hlt := Nat.digits_lt_base (by decide) (List.mem_reverse.mp hd)
    rw [digit_iff, toNat_digit hlt]
    omega

/-- The sum of `Long.parseLong` over the digits of a number. -/
theorem foldl_digits (n : ℕ) : (digits n).foldl (fun n c => n * 10 + (c.toNat - 0x30)) 0 = n := by
  unfold digits
  split_ifs with h
  · rw [h]
    decide
  · have hfold : ∀ ds : List ℕ, (∀ d ∈ ds, d < 10) →
        (ds.reverse.map fun d => UInt16.ofNat (0x30 + d)).foldl
          (fun n c => n * 10 + (c.toNat - 0x30)) 0 = Nat.ofDigits 10 ds := by
      intro ds
      induction ds with
      | nil => exact fun _ => rfl
      | cons d ds ih =>
        intro hds
        obtain ⟨hd, hrest⟩ := List.forall_mem_cons.mp hds
        rw [List.reverse_cons, List.map_append, List.foldl_append, ih hrest, Nat.ofDigits_cons]
        simp only [List.map_cons, List.map_nil, List.foldl_cons, List.foldl_nil, toNat_digit hd]
        omega
    rw [hfold _ fun d => Nat.digits_lt_base (by decide), Nat.ofDigits_digits]

theorem length_digits {n : ℕ} (h : n < 10 ^ 19) : (digits n).length ≤ 19 := by
  unfold digits
  split_ifs
  · decide
  · rw [List.length_map, List.length_reverse]
    exact (Nat.digits_length_le_iff (by decide) n).mpr h

theorem parseLong_decimal (v : Int64) : parseLong (decimal v.toInt) = some v := by
  have hlt := v.toInt_lt
  have hge := v.le_toInt
  have hall : ∀ n, (digits n).all digit = true := fun n => List.all_eq_true.mpr fun _ => digits_digit
  unfold decimal
  split_ifs with hneg
  · have hmagnitude : v.toInt.natAbs ≤ 2 ^ 63 := by omega
    have hvalue : -(v.toInt.natAbs : ℤ) = v.toInt := by omega
    simp only [parseLong, List.head?_cons, if_true, List.tail_cons, foldl_digits, hall]
    rw [if_neg (by simp [digits_ne_nil]), if_pos hmagnitude, hvalue, Int64.ofInt_toInt]
  · have hmagnitude : v.toInt.natAbs < 2 ^ 63 := by omega
    have hvalue : (v.toInt.natAbs : ℤ) = v.toInt := by omega
    have hhead : (digits v.toInt.natAbs).head? ≠ some minus := by
      intro h
      exact absurd (digits_digit (List.mem_of_mem_head? h)) (by decide)
    simp only [parseLong, hhead, if_false, foldl_digits, hall]
    rw [if_neg (by simp [digits_ne_nil]), if_pos hmagnitude, hvalue, Int64.ofInt_toInt]

theorem length_decimal (v : Int64) : (decimal v.toInt).length ≤ 20 := by
  have hlt := v.toInt_lt
  have hge := v.le_toInt
  have hdigits := length_digits (n := v.toInt.natAbs) (by omega)
  unfold decimal
  split_ifs
  · rw [List.length_cons]
    omega
  · omega

/-- The decimals of a number are a minus or a digit and then digits. -/
theorem decimal_eq_cons (v : ℤ) : ∃ c tail, decimal v = c :: tail ∧
    (c = minus ∨ digit c = true) ∧ ∀ c ∈ tail, digit c = true := by
  unfold decimal
  split_ifs
  · exact ⟨minus, _, rfl, .inl rfl, fun _ => digits_digit⟩
  · obtain ⟨c, tail, hdigits⟩ := List.exists_cons_of_ne_nil (digits_ne_nil v.natAbs)
    refine ⟨c, tail, hdigits, .inr ?_, fun d hd => ?_⟩
    · exact digits_digit (hdigits ▸ List.mem_cons_self)
    · exact digits_digit (hdigits ▸ List.mem_cons_of_mem c hd)

theorem takeWhile_digit {tail : JavaString} (htail : ∀ c ∈ tail, digit c = true) (h : Ended rest) :
    (tail ++ rest).takeWhile digit = tail ∧ (tail ++ rest).dropWhile digit = rest := by
  rw [List.takeWhile_append_of_pos htail, List.dropWhile_append_of_pos htail]
  cases rest with
  | nil => simp
  | cons c rest =>
    have hc := h c rfl
    simp [hc]

theorem number_decimal {v : Int64} {c : UInt16} {tail : JavaString}
    (hdecimal : decimal v.toInt = c :: tail) (h : Ended rest) :
    number c ⟨tail ++ rest, values⟩ = .ok (long v, ⟨rest, values⟩) := by
  obtain ⟨c', tail', hcons, hc, htail⟩ := decimal_eq_cons v.toInt
  obtain ⟨rfl, rfl⟩ := List.cons.inj (hdecimal.symm.trans hcons)
  obtain ⟨htake, hdrop⟩ := takeWhile_digit htail h
  have hlength := length_decimal v
  have hparse := parseLong_decimal v
  rw [hdecimal] at hlength hparse
  rw [number, parse_bind (parse_require hc)]
  -- the state is read and set
  refine (parse_bind rfl).trans ((parse_bind rfl).trans ?_)
  simp only [htake, hdrop, hparse]
  exact (parse_bind (parse_require hlength)).trans rfl

/-! ### Values -/

/-- `p` reads the text of a value where no digit follows, and counts it. -/
def ReadsValue (p : Parse Json) (value : Json) : Prop :=
  ∀ rest values, Ended rest → values + count value ≤ 100000 →
    p ⟨render value ++ rest, values⟩ = .ok (canonical value, ⟨rest, values + count value⟩)

theorem join_false (text : JavaString) (texts : List JavaString) :
    join false (text :: texts) = comma :: join true (text :: texts) := by
  simp [join]

theorem ended_join {c : UInt16} (hc : digit c = false) (texts : List JavaString) :
    Ended (join false texts ++ c :: rest) := by
  cases texts with
  | nil => exact ended_cons hc
  | cons text texts =>
    rw [join_false]
    exact ended_cons (by decide)

/-- The loop over the members reads them in the order in which they stand. -/
theorem parseMembers_join {p : Parse Json} {entries : List (JavaString × Json)} :
    ∀ {fuel : ℕ} {done : List (JavaString × Json)} {values : ℕ},
      (∀ entry ∈ entries, key entry.1 = true ∧ ReadsValue p entry.2) →
      (done.map Prod.fst ++ entries.map Prod.fst).Nodup → entries ≠ [] → entries.length ≤ fuel →
      values + (entries.map fun entry => count entry.2).sum ≤ 100000 →
      parseMembers p fuel done
          ⟨join true (entries.map fun entry => member (entry.1, render entry.2)) ++
            closeBrace :: rest, values⟩ =
        .ok (done ++ entries.map fun entry => (entry.1, canonical entry.2),
          ⟨closeBrace :: rest, values + (entries.map fun entry => count entry.2).sum⟩) := by
  induction entries with
  | nil => exact fun _ _ hne => absurd rfl hne
  | cons entry entries ih =>
    intro fuel done values hentries hnodup _ hfuel hvalues
    obtain ⟨⟨hkey, hread⟩, hrest⟩ := List.forall_mem_cons.mp hentries
    obtain ⟨fuel, rfl⟩ : ∃ n, fuel = n + 1 := ⟨fuel - 1, by rw [List.length_cons] at hfuel; omega⟩
    have hnew : entry.1 ∉ done.map Prod.fst := fun h =>
      (List.nodup_append.mp hnodup).2.2 _ h _ List.mem_cons_self rfl
    rw [List.map_cons, List.sum_cons] at hvalues
    have hfirst : ∀ texts, join true (member (entry.1, render entry.2) :: texts) ++
        closeBrace :: rest = quoteMark :: ((quoted entry.1).tail ++
          (colon :: (render entry.2 ++ (join false texts ++ closeBrace :: rest)))) := by
      intro texts
      simp [join, member, quoted]
    rw [List.map_cons, hfirst, parseMembers, parse_bind (expect_cons _),
      parse_bind (scanString_quoted _), parse_bind (parse_require ⟨hkey, hnew⟩),
      parse_bind (expect_cons _)]
    rw [parse_bind (hread _ _ (ended_join (by decide) _) (by omega))]
    cases entries with
    | nil =>
      show (consume comma >>= fun more =>
        if more = true then parseMembers p fuel (done ++ [(entry.1, canonical entry.2)])
        else pure (done ++ [(entry.1, canonical entry.2)]))
          ⟨closeBrace :: rest, values + count entry.2⟩ = _
      rw [parse_bind (consume_other (by rw [List.head?_cons]; decide))]
      rfl
    | cons entry' entries =>
      rw [List.map_cons, join_false, List.cons_append, parse_bind (consume_cons _), if_pos rfl]
      refine (ih hrest ?_ (List.cons_ne_nil _ _) (Nat.le_of_succ_le_succ hfuel) ?_).trans ?_
      · simpa using hnodup
      · omega
      · simp [Nat.add_assoc]

/-- The loop over the elements reads them in the order in which they stand. -/
theorem parseElements_join {p : Parse Json} {elements : List Json} :
    ∀ {fuel : ℕ} {done : List Json} {values : ℕ}, (∀ element ∈ elements, ReadsValue p element) →
      elements ≠ [] → elements.length ≤ fuel →
      values + (elements.map count).sum ≤ 100000 →
      parseElements p fuel done
          ⟨join true (elements.map render) ++ closeBracket :: rest, values⟩ =
        .ok (done ++ elements.map canonical,
          ⟨closeBracket :: rest, values + (elements.map count).sum⟩) := by
  induction elements with
  | nil => exact fun _ hne => absurd rfl hne
  | cons element elements ih =>
    intro fuel done values helements _ hfuel hvalues
    obtain ⟨hread, hrest⟩ := List.forall_mem_cons.mp helements
    obtain ⟨fuel, rfl⟩ : ∃ n, fuel = n + 1 := ⟨fuel - 1, by rw [List.length_cons] at hfuel; omega⟩
    rw [List.map_cons, List.sum_cons] at hvalues
    have hfirst : ∀ texts, join true (render element :: texts) ++ closeBracket :: rest =
        render element ++ (join false texts ++ closeBracket :: rest) := by
      intro texts
      simp [join]
    rw [List.map_cons, hfirst, parseElements,
      parse_bind (hread _ _ (ended_join (by decide) _) (by omega))]
    cases elements with
    | nil =>
      show (consume comma >>= fun more =>
        if more = true then parseElements p fuel (done ++ [canonical element])
        else pure (done ++ [canonical element]))
          ⟨closeBracket :: rest, values + count element⟩ = _
      rw [parse_bind (consume_other (by rw [List.head?_cons]; decide))]
      rfl
    | cons element' elements =>
      rw [List.map_cons, join_false, List.cons_append, parse_bind (consume_cons _), if_pos rfl]
      refine (ih hrest (List.cons_ne_nil _ _) (Nat.le_of_succ_le_succ hfuel) ?_).trans ?_
      · omega
      · simp [Nat.add_assoc]

/-- The text of a value does not close a list. -/
theorem render_head (value : Json) : ∃ c tail, render value = c :: tail ∧ c ≠ closeBracket := by
  have hdecimal : ∀ v, ∃ c tail, decimal v = c :: tail ∧ c ≠ closeBracket := by
    intro v
    obtain ⟨c, tail, heq, hc, -⟩ := decimal_eq_cons v
    refine ⟨c, tail, heq, ?_⟩
    rintro rfl
    exact absurd hc (by decide)
  cases value with
  | integer v =>
    rw [render]
    exact hdecimal _
  | long v =>
    rw [render]
    exact hdecimal _
  | bool b => cases b <;> (rw [render]; exact ⟨_, _, rfl, by decide⟩)
  | _ =>
    rw [render]
    exact ⟨_, _, rfl, by decide⟩

/-- Behind its first character, `valueFrom` reads the text of a value and counts what is in it. -/
def ReadsFrom (p : Parse Json) (value : Json) : Prop :=
  ∃ c tail, render value = c :: tail ∧ ∀ rest values, Ended rest →
    values + count value ≤ 100001 → valueFrom p c ⟨tail ++ rest, values⟩ =
      .ok (canonical value, ⟨rest, values + count value - 1⟩)

/-- The checks at the entry of `value`. -/
theorem ReadsFrom.readsValue {levels : ℕ} {value : Json} (h : ReadsFrom (parseValue levels) value) :
    ReadsValue (parseValue (levels + 1)) value := by
  intro rest values hended hvalues
  obtain ⟨c, tail, hrender, hread⟩ := h
  have hpos := count_pos value
  rw [hrender, List.cons_append, parseValue]
  refine (parse_bind rfl).trans ((parse_bind (parse_require ?_)).trans ?_)
  · show values < 100000
    omega
  · refine ((parse_bind (take_cons c)).trans (hread rest (values + 1) hended (by omega))).trans ?_
    rw [Nat.add_right_comm, Nat.add_sub_cancel]

theorem readsFrom_null (p : Parse Json) : ReadsFrom p null := by
  have hcanonical : canonical null = null := by rw [canonical] <;> simp
  have hcount : count null = 1 := by rw [count] <;> simp
  refine ⟨_, _, by rw [render, nullText], fun rest values _ _ => ?_⟩
  rw [hcanonical, hcount]
  exact (parse_bind (literal_append nullText.tail)).trans rfl

theorem readsFrom_bool (p : Parse Json) (b : Bool) : ReadsFrom p (bool b) := by
  have hcanonical : canonical (bool b) = bool b := by rw [canonical] <;> simp
  have hcount : count (bool b) = 1 := by rw [count] <;> simp
  cases b with
  | true =>
    refine ⟨_, _, by rw [render, if_pos rfl, trueText], fun rest values _ _ => ?_⟩
    rw [hcanonical, hcount]
    exact (parse_bind (literal_append trueText.tail)).trans rfl
  | false =>
    refine ⟨_, _, by rw [render, if_neg Bool.false_ne_true, falseText], fun rest values _ _ => ?_⟩
    rw [hcanonical, hcount]
    exact (parse_bind (literal_append falseText.tail)).trans rfl

theorem readsFrom_number (p : Parse Json) {value : Json} {v : Int64}
    (hrender : render value = decimal v.toInt) (hcanonical : canonical value = long v)
    (hcount : count value = 1) : ReadsFrom p value := by
  obtain ⟨c, tail, hdecimal, hc, -⟩ := decimal_eq_cons v.toInt
  refine ⟨c, tail, hrender.trans hdecimal, fun rest values hended _ => ?_⟩
  have hnumber : valueFrom p c = number c := by
    have hother : c ≠ quoteMark ∧ c ≠ openBrace ∧ c ≠ openBracket ∧ c ≠ 0x74 ∧ c ≠ 0x66 ∧
        c ≠ 0x6E := by
      refine ⟨?_, ?_, ?_, ?_, ?_, ?_⟩ <;> (rintro rfl; exact absurd hc (by decide))
    obtain ⟨hquote, hbrace, hbracket, ht, hf, hn⟩ := hother
    rw [valueFrom, if_neg hquote, if_neg hbrace, if_neg hbracket, if_neg ht, if_neg hf, if_neg hn]
  rw [hnumber, number_decimal hdecimal hended, hcanonical, hcount, Nat.add_sub_cancel]

theorem readsFrom_string (p : Parse Json) (value : JavaString) : ReadsFrom p (string value) := by
  have hcanonical : canonical (string value) = string value := by rw [canonical] <;> simp
  have hcount : count (string value) = 1 := by rw [count] <;> simp
  refine ⟨quoteMark, (quoted value).tail, by rw [render]; rfl, fun rest values _ _ => ?_⟩
  rw [hcanonical, hcount]
  exact (parse_bind (scanString_quoted value)).trans rfl

theorem length_join {texts : List JavaString} (h : ∀ text ∈ texts, 0 < text.length) (first : Bool) :
    texts.length ≤ (join first texts).length := by
  induction texts generalizing first with
  | nil => exact Nat.zero_le _
  | cons text texts ih =>
    obtain ⟨htext, hrest⟩ := List.forall_mem_cons.mp h
    have hle := ih hrest false
    rw [join, List.length_append, List.length_append, List.length_cons]
    omega

theorem readsFrom_map {p : Parse Json} {entries : List (JavaString × Json)}
    (hentries : ∀ entry ∈ entries, key entry.1 = true ∧ ReadsValue p entry.2)
    (hdistinct : (entries.map Prod.fst).Nodup) : ReadsFrom p (map entries) := by
  have hperm := sorted_perm entries
  have hsum := (hperm.map fun entry => count entry.2).sum_eq
  refine ⟨openBrace, _, by rw [render, renderMembers_eq, sorted_map, List.cons_append],
    fun rest values _ hvalues => ?_⟩
  have hbody : valueFrom p openBrace = (do
      if ← consume closeBrace then return map []
      else
        let entries ← parseMembers p ((← get).rest.length + 1) []
        expect closeBrace
        return map (sorted entries)) := rfl
  have hsorted := sorted_sorted (entries.map fun entry => (entry.1, canonical entry.2))
  rw [canonical, canonicalMembers_eq, count, countMembers_eq, ← hsum]
  rw [count, countMembers_eq, ← hsum] at hvalues
  rw [sorted_map] at hsorted ⊢
  rw [hbody, List.map_map, Function.comp_def, List.append_assoc, List.singleton_append]
  have hreads := fun entry he => hentries entry (hperm.mem_iff.mp he)
  have hnodup := (hperm.map Prod.fst).nodup_iff.mpr hdistinct
  generalize sorted entries = ordered at *
  cases hordered : ordered with
  | nil => exact (parse_bind (consume_cons closeBrace)).trans rfl
  | cons entry others =>
    have hother : (join true (ordered.map fun entry => member (entry.1, render entry.2)) ++
        closeBrace :: rest).head? ≠ some closeBrace := by
      simp [hordered, join, member, quoted]
      decide
    have hlength : ordered.length ≤
        (join true (ordered.map fun entry => member (entry.1, render entry.2))).length := by
      rw [← List.length_map (f := fun entry => member (entry.1, render entry.2))]
      refine length_join (fun text htext => ?_) true
      obtain ⟨entry', -, rfl⟩ := List.mem_map.mp htext
      simp [member]
    rw [← hordered, parse_bind (consume_other hother), if_neg Bool.false_ne_true]
    refine (parse_bind rfl).trans
      ((parse_bind (parseMembers_join hreads (by simpa using hnodup) ?_ ?_ ?_)).trans ?_)
    · simp [hordered]
    · simp only [List.length_append]
      omega
    · omega
    · refine (parse_bind (expect_cons _)).trans ?_
      rw [List.nil_append, hsorted, Nat.add_comm 1, ← Nat.add_assoc, Nat.add_sub_cancel]
      rfl

theorem readsFrom_list {p : Parse Json} {elements : List Json}
    (helements : ∀ element ∈ elements, ReadsValue p element) : ReadsFrom p (list elements) := by
  refine ⟨openBracket, _, by rw [render, renderElements_eq, List.cons_append],
    fun rest values _ hvalues => ?_⟩
  have hbody : valueFrom p openBracket = (do
      if ← consume closeBracket then return list []
      else
        let elements ← parseElements p ((← get).rest.length + 1) []
        expect closeBracket
        return list elements) := rfl
  rw [canonical, canonicalElements_eq, count, countElements_eq]
  rw [count, countElements_eq] at hvalues
  rw [hbody, List.append_assoc, List.singleton_append]
  cases helements' : elements with
  | nil => exact (parse_bind (consume_cons closeBracket)).trans rfl
  | cons element others =>
    obtain ⟨c, tail, hhead, hc⟩ := render_head element
    have hother : (join true (elements.map render) ++ closeBracket :: rest).head? ≠
        some closeBracket := by
      simpa [helements', join, hhead] using hc
    have hlength : elements.length ≤ (join true (elements.map render)).length := by
      rw [← List.length_map (f := render)]
      refine length_join (fun text htext => ?_) true
      obtain ⟨element', -, rfl⟩ := List.mem_map.mp htext
      obtain ⟨c', tail', hhead', -⟩ := render_head element'
      rw [hhead', List.length_cons]
      omega
    rw [← helements', parse_bind (consume_other hother), if_neg Bool.false_ne_true]
    refine (parse_bind rfl).trans ((parse_bind (parseElements_join helements ?_ ?_ ?_)).trans ?_)
    · simp [helements']
    · simp only [List.length_append]
      omega
    · omega
    · refine (parse_bind (expect_cons _)).trans ?_
      rw [List.nil_append, Nat.add_comm 1, ← Nat.add_assoc, Nat.add_sub_cancel]
      rfl

/-- `value` reads the text of a value that fits at its depth. -/
theorem parseValue_reads (value : Json) : ∀ {levels depth : ℕ}, Distinct value →
    Fits value depth → levels + depth = 17 → ReadsValue (parseValue levels) value := by
  have hlevel : ∀ {value levels depth}, Fits value depth → levels + depth = 17 →
      ∃ n, levels = n + 1 ∧ n + (depth + 1) = 17 := by
    intro value levels depth hfits hlevels
    have hdepth := fits_depth hfits
    exact ⟨levels - 1, by omega, by omega⟩
  induction value using induct with
  | null =>
    intro levels depth _ hfits hlevels
    obtain ⟨n, rfl, -⟩ := hlevel hfits hlevels
    exact (readsFrom_null _).readsValue
  | bool b =>
    intro levels depth _ hfits hlevels
    obtain ⟨n, rfl, -⟩ := hlevel hfits hlevels
    exact (readsFrom_bool _ b).readsValue
  | integer v =>
    intro levels depth _ hfits hlevels
    obtain ⟨n, rfl, -⟩ := hlevel hfits hlevels
    refine (readsFrom_number _ (v := v.toInt64) ?_ (by rw [canonical]) ?_).readsValue
    · rw [render, Int32.toInt_toInt64]
    · rw [count] <;> simp
  | long v =>
    intro levels depth _ hfits hlevels
    obtain ⟨n, rfl, -⟩ := hlevel hfits hlevels
    refine (readsFrom_number _ (by rw [render]) ?_ ?_).readsValue
    · rw [canonical] <;> simp
    · rw [count] <;> simp
  | string s =>
    intro levels depth _ hfits hlevels
    obtain ⟨n, rfl, -⟩ := hlevel hfits hlevels
    exact (readsFrom_string _ s).readsValue
  | map entries ih =>
    intro levels depth hdistinct hfits hlevels
    obtain ⟨n, rfl, hn⟩ := hlevel hfits hlevels
    rw [Fits, fitsMembers_iff] at hfits
    rw [Distinct, distinctMembers_iff] at hdistinct
    refine (readsFrom_map (fun entry he => ?_) hdistinct.1).readsValue
    exact ⟨(hfits.2 entry he).1, ih entry he (hdistinct.2 entry he) (hfits.2 entry he).2 hn⟩
  | list elements ih =>
    intro levels depth hdistinct hfits hlevels
    obtain ⟨n, rfl, hn⟩ := hlevel hfits hlevels
    rw [Fits, fitsElements_iff] at hfits
    rw [Distinct, distinctElements_iff] at hdistinct
    refine (readsFrom_list fun element he => ?_).readsValue
    exact ih element he (hdistinct element he) (hfits.2 element he) hn

/-! ### Texts -/

/-- Only ASCII characters. -/
def AsciiText (text : JavaString) : Prop := ∀ c ∈ text, c.toNat < 0x80

theorem asciiText_of_all {text : JavaString} (h : text.all (·.toNat < 0x80) = true) :
    AsciiText text := by
  intro c hc
  simpa using List.all_eq_true.mp h c hc

theorem asciiText_append {text text' : JavaString} :
    AsciiText (text ++ text') ↔ AsciiText text ∧ AsciiText text' := List.forall_mem_append

theorem asciiText_cons {c : UInt16} {text : JavaString} :
    AsciiText (c :: text) ↔ c.toNat < 0x80 ∧ AsciiText text := List.forall_mem_cons

theorem asciiText_escape (c : UInt16) : AsciiText (escape c) := by
  have hhex : ∀ n, n < 16 → (hexDigit n).toNat < 0x80 := by decide
  have hc := c.toNat_lt
  unfold escape
  split_ifs with hsame
  · have hlt : c.toNat < 0x80 := by
      rcases hsame with rfl | rfl <;> decide
    simp [AsciiText, hlt, backslash]
  iterate 5 exact asciiText_of_all (by decide)
  · simp only [asciiText_cons]
    refine ⟨by decide, by decide, hhex _ ?_, hhex _ ?_, hhex _ ?_, hhex _ ?_, fun _ h => nomatch h⟩ <;>
      omega

theorem asciiText_quoted (value : JavaString) : AsciiText (quoted value) := by
  rw [quoted, asciiText_append, asciiText_cons]
  refine ⟨⟨by decide, fun d hd => ?_⟩, asciiText_cons.mpr ⟨by decide, fun _ h => absurd h List.not_mem_nil⟩⟩
  obtain ⟨c, -, hc⟩ := List.mem_flatMap.mp hd
  split_ifs at hc with hplain
  · obtain ⟨-, hlt, -⟩ := plain_iff.mp hplain
    rw [List.mem_singleton.mp hc]
    rw [UInt16.lt_iff_toNat_lt] at hlt
    exact lt_trans hlt (by decide)
  · exact asciiText_escape c d hc

theorem asciiText_digits (n : ℕ) : AsciiText (digits n) := by
  intro c hc
  have := digit_iff.mp (digits_digit hc)
  omega

theorem asciiText_decimal (v : ℤ) : AsciiText (decimal v) := by
  unfold decimal
  split_ifs
  · exact asciiText_cons.mpr ⟨by decide, asciiText_digits _⟩
  · exact asciiText_digits _

theorem asciiText_join {texts : List JavaString} (h : ∀ text ∈ texts, AsciiText text)
    (first : Bool) : AsciiText (join first texts) := by
  induction texts generalizing first with
  | nil => exact fun _ hc => nomatch hc
  | cons text texts ih =>
    obtain ⟨htext, hrest⟩ := List.forall_mem_cons.mp h
    rw [join, asciiText_append, asciiText_append]
    refine ⟨⟨?_, htext⟩, ih hrest false⟩
    cases first <;> simp [AsciiText, comma]

theorem asciiText_render (value : Json) : AsciiText (render value) := by
  induction value using induct with
  | null =>
    rw [render]
    exact asciiText_of_all (by decide)
  | bool b =>
    rw [render]
    cases b <;> exact asciiText_of_all (by decide)
  | integer v =>
    rw [render]
    exact asciiText_decimal _
  | long v =>
    rw [render]
    exact asciiText_decimal _
  | string s =>
    rw [render]
    exact asciiText_quoted s
  | map entries ih =>
    rw [render, renderMembers_eq, sorted_map, asciiText_append, asciiText_cons]
    refine ⟨⟨by decide, asciiText_join (fun text htext => ?_) true⟩, ?_⟩
    · obtain ⟨_, hmem, rfl⟩ := List.mem_map.mp htext
      obtain ⟨entry, hentry, rfl⟩ := List.mem_map.mp hmem
      rw [member, asciiText_append, asciiText_cons]
      exact ⟨asciiText_quoted _, by decide, ih entry ((sorted_perm entries).mem_iff.mp hentry)⟩
    · exact asciiText_cons.mpr ⟨by decide, fun _ h => absurd h List.not_mem_nil⟩
  | list elements ih =>
    rw [render, renderElements_eq, asciiText_append, asciiText_cons]
    refine ⟨⟨by decide, asciiText_join (fun text htext => ?_) true⟩, ?_⟩
    · obtain ⟨element, hmem, rfl⟩ := List.mem_map.mp htext
      exact ih element hmem
    · exact asciiText_cons.mpr ⟨by decide, fun _ h => absurd h List.not_mem_nil⟩

/-- The bytes of an ASCII text are the bytes of a string again. -/
theorem asciiBytes_text {text : JavaString} (h : AsciiText text) :
    (∀ b ∈ asciiBytes text, b.toNat < 0x80) ∧
      (asciiBytes text).map (fun b => UInt16.ofNat b.toNat) = text := by
  induction text with
  | nil => exact ⟨fun _ hb => (nomatch hb), rfl⟩
  | cons c text ih =>
    obtain ⟨hc, hrest⟩ := asciiText_cons.mp h
    obtain ⟨hbytes, hchars⟩ := ih hrest
    have hbyte : (UInt8.ofNat c.toNat).toNat = c.toNat := UInt8.toNat_ofNat_of_lt' (by
      rw [UInt8.size]
      omega)
    have hcons : asciiBytes (c :: text) = UInt8.ofNat c.toNat :: asciiBytes text := by
      rw [asciiBytes, List.map_cons, if_pos hc]
      rfl
    rw [hcons]
    refine ⟨List.forall_mem_cons.mpr ⟨by omega, hbytes⟩, ?_⟩
    rw [List.map_cons, hbyte, UInt16.ofNat_toNat, hchars]

theorem decode_eq_ok {value : Json} {maximum : ℤ} {bytes : Bytes} :
    decode bytes maximum = .ok value ↔ (bytes.length : ℤ) ≤ maximum ∧
      (∀ b ∈ bytes, b.toNat < 0x80) ∧
      (∃ parser, parseValue 17 ⟨bytes.map fun b => UInt16.ofNat b.toNat, 0⟩ = .ok (value, parser) ∧
        parser.rest = []) ∧ encode value maximum = .ok bytes := by
  simp only [decode, Lib.bind_eq_ok, require_eq_ok, Prod.exists]
  constructor
  · rintro ⟨_, hlength, _, hascii, value', parser, hparse, _, hrest, canonical, hencode, _, rfl, hvalue⟩
    cases hvalue
    exact ⟨hlength, hascii, ⟨parser, hparse, hrest⟩, hencode⟩
  · rintro ⟨hlength, hascii, ⟨parser, hparse, hrest⟩, hencode⟩
    exact ⟨(), hlength, (), hascii, value, parser, hparse, (), hrest, bytes, hencode, (), rfl, rfl⟩

theorem count_canonical (value : Json) : count (canonical value) = count value := by
  induction value using induct with
  | null => rw [canonical] <;> simp
  | bool => rw [canonical] <;> simp
  | integer v => rw [canonical, count, count] <;> simp
  | long => rw [canonical] <;> simp
  | string => rw [canonical] <;> simp
  | map entries ih =>
    have hcounts : entries.map (fun entry => count (canonical entry.2)) =
        entries.map fun entry => count entry.2 := List.map_congr_left ih
    have hsum := ((sorted_perm (entries.map fun entry => (entry.1, canonical entry.2))).map
      fun entry => count entry.2).sum_eq
    rw [List.map_map, Function.comp_def, hcounts] at hsum
    rw [canonical, canonicalMembers_eq, count, count, countMembers_eq, countMembers_eq, hsum]
  | list elements ih =>
    have hcounts : elements.map (count ∘ canonical) = elements.map count := List.map_congr_left ih
    rw [canonical, canonicalElements_eq, count, count, countElements_eq, countElements_eq,
      List.map_map, hcounts]

theorem fits_canonical (value : Json) : ∀ depth, Fits value depth → Fits (canonical value) depth := by
  induction value using induct with
  | null => rw [canonical] <;> simp
  | bool => rw [canonical] <;> simp
  | integer v =>
    intro depth h
    have hdepth := fits_depth h
    rw [canonical, Fits] <;> simp [hdepth]
  | long => rw [canonical] <;> simp
  | string => rw [canonical] <;> simp
  | map entries ih =>
    intro depth h
    rw [Fits, fitsMembers_iff] at h
    rw [canonical, canonicalMembers_eq, Fits, fitsMembers_iff]
    refine ⟨h.1, fun entry he => ?_⟩
    obtain ⟨entry', he', rfl⟩ := List.mem_map.mp ((sorted_perm _).mem_iff.mp he)
    exact ⟨(h.2 entry' he').1, ih entry' he' _ (h.2 entry' he').2⟩
  | list elements ih =>
    intro depth h
    rw [Fits, fitsElements_iff] at h
    rw [canonical, canonicalElements_eq, Fits, fitsElements_iff]
    refine ⟨h.1, fun element he => ?_⟩
    obtain ⟨element', he', rfl⟩ := List.mem_map.mp he
    exact ih element' he' _ (h.2 element' he')

/-- `decode` reads what `encode` wrote, within the same bound. -/
theorem decode_of_encode {value : Json} {maximum : ℤ} {bytes : Bytes} (hdistinct : Distinct value)
    (h : encode value maximum = .ok bytes) : decode bytes maximum = .ok (canonical value) := by
  obtain ⟨hfits, hlength, hcount, rfl⟩ := encode_eq_ok.mp h
  obtain ⟨hascii, htext⟩ := asciiBytes_text (asciiText_render value)
  have hread := parseValue_reads value hdistinct hfits rfl [] 0 (fun _ hc => nomatch hc) (by omega)
  rw [List.append_nil] at hread
  refine decode_eq_ok.mpr ⟨?_, hascii, ⟨_, htext ▸ hread, rfl⟩, ?_⟩
  · rwa [asciiBytes, List.length_map]
  · rw [encode_eq_ok, render_canonical, count_canonical]
    exact ⟨fits_canonical value 0 hfits, hlength, hcount, rfl⟩

/-- What `decode` accepts is what `encode` writes. -/
theorem encode_of_decode {value : Json} {maximum : ℤ} {bytes : Bytes}
    (h : decode bytes maximum = .ok value) : encode value maximum = .ok bytes :=
  (decode_eq_ok.mp h).2.2.2

/-- Two values are the same when their maps have the same entries, in whatever order, and their
numbers are the same, in whatever type. -/
def Same (value value' : Json) : Prop := canonical value = canonical value'

theorem canonical_canonical (value : Json) : canonical (canonical value) = canonical value := by
  induction value using induct with
  | null => simp [canonical]
  | bool => simp [canonical]
  | integer v => simp [canonical]
  | long => simp [canonical]
  | string => simp [canonical]
  | map entries ih =>
    have hentries : (sorted (entries.map fun entry => (entry.1, canonical entry.2))).map
        (fun entry => (entry.1, canonical entry.2)) =
          sorted (entries.map fun entry => (entry.1, canonical entry.2)) := by
      rw [← sorted_map, List.map_map]
      exact congrArg sorted (List.map_congr_left fun entry he => by simp [ih entry he])
    rw [canonical, canonicalMembers_eq, canonical, canonicalMembers_eq, hentries, sorted_sorted]
  | list elements ih =>
    rw [canonical, canonicalElements_eq, canonical, canonicalElements_eq, List.map_map]
    exact congrArg list (List.map_congr_left ih)

/-- What `encode` writes within a limit, `decode` reads within that limit as the same value with
every number as a `Long`, and what `decode` accepts is what `encode` writes. -/
theorem codec_roundTrip (value : Json) (maximum : ℤ) (bytes : Bytes) :
    (Distinct value → encode value maximum = .ok bytes →
      ∃ value', decode bytes maximum = .ok value' ∧ Same value value' ∧ value' = canonical value) ∧
    (decode bytes maximum = .ok value → encode value maximum = .ok bytes) := by
  refine ⟨fun hdistinct h => ⟨canonical value, decode_of_encode hdistinct h, ?_, rfl⟩,
    encode_of_decode⟩
  exact (canonical_canonical value).symm

/-- An object with its keys out of order, a control character and an `Integer`. -/
theorem codec_roundTrip_object :
    ∃ bytes value',
      encode (map [([0x62], integer 0), ([0x61], list [string [0x0A], bool true])]) 23 = .ok bytes ∧
      decode bytes 23 = .ok value' ∧
      Same (map [([0x62], integer 0), ([0x61], list [string [0x0A], bool true])]) value' := by
  have hdistinct : Distinct
      (map [([0x62], integer 0), ([0x61], list [string [0x0A], bool true])]) := by
    simp [Distinct, DistinctMembers, DistinctElements]
  have hfits : Fits (map [([0x62], integer 0), ([0x61], list [string [0x0A], bool true])]) 0 := by
    simp [Fits, FitsMembers, FitsElements, key, letter]
  have hencode := encode_eq_ok.mpr ⟨hfits, (by decide : _ ≤ (23 : ℤ)), by decide, rfl⟩
  obtain ⟨value', hdecode, hsame, -⟩ := (codec_roundTrip _ _ _).1 hdistinct hencode
  exact ⟨_, value', hencode, hdecode, hsame⟩

/-- The `Integer` 0 is read back as a `Long`. -/
theorem decode_integer : encode (integer 0) 1 = .ok [0x30] ∧ decode [0x30] 1 = .ok (long 0) ∧
    long 0 ≠ integer 0 := by
  have hdistinct : Distinct (integer 0) := by simp [Distinct]
  have hfits : Fits (integer 0) 0 := by simp [Fits]
  have hencode : encode (integer 0) 1 = .ok [0x30] :=
    encode_eq_ok.mpr ⟨hfits, by decide, by decide, rfl⟩
  have hdecode := decode_of_encode hdistinct hencode
  rw [canonical] at hdecode
  exact ⟨hencode, hdecode, by simp⟩

end

end Json

end GeneralSearch.Replica
