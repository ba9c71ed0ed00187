import Mathlib.Data.List.TakeWhile
import ZoneHistory.Json.Reader
import ZoneHistory.Json.Writer
import ZoneHistory.Proofs.Text.Digits

/-!
# Reading back what was written

Main statement: a value in which every number is whole is read back from its pretty
layout (`read?_pretty`).

`Value.tokens` stands between the two. The scanner takes the layout of a value to
its tokens, whatever follows, as long as that ends a word (`scan_value`), and the
reader takes the tokens of a value, whatever is open around it, to the value
(`foldlM_tokens`). Both go by the structure of the value.
-/

namespace ZoneHistory.Json

/-! ## Exact values and their tokens -/

mutual

/-- Every number in the value is whole, so that it is written with all its digits. -/
def Value.Exact : Value → Prop
  | .number (.scaled _ _ _) => False
  | .array items => ItemsExact items
  | .object members => MembersExact members
  | _ => True

def ItemsExact : List Value → Prop
  | [] => True
  | v :: rest => v.Exact ∧ ItemsExact rest

def MembersExact : List (Content × Value) → Prop
  | [] => True
  | (_, v) :: rest => v.Exact ∧ MembersExact rest

end

theorem itemsExact_iff {items : List Value} : ItemsExact items ↔ ∀ v ∈ items, v.Exact := by
  induction items with
  | nil => simp [ItemsExact]
  | cons v rest ih => simp [ItemsExact, ih]

theorem membersExact_iff {members : List (Content × Value)} :
    MembersExact members ↔ ∀ m ∈ members, m.2.Exact := by
  induction members with
  | nil => simp [MembersExact]
  | cons m rest ih =>
      obtain ⟨key, v⟩ := m
      simp [MembersExact, ih]

theorem exact_record_iff {members : List (String × Value)} :
    (Value.record members).Exact ↔ ∀ m ∈ members, m.2.Exact :=
  membersExact_iff.trans List.forall_mem_map

theorem exact_array_map {α : Type} {write : α → Value} (h : ∀ a, (write a).Exact) (l : List α) :
    (Value.array (l.map write)).Exact :=
  itemsExact_iff.mpr (List.forall_mem_map.mpr fun a _ => h a)

mutual

/-- The tokens of a value. -/
def Value.tokens : Value → List Token
  | .null => [.null]
  | .bool b => [.bool b]
  | .number n => [.number n]
  | .string content => [.string content]
  | .array items => .openArray :: itemTokens items ++ [.closeArray]
  | .object members => .openObject :: memberTokens members ++ [.closeObject]

def itemTokens : List Value → List Token
  | [] => []
  | [v] => v.tokens
  | v :: rest => v.tokens ++ .comma :: itemTokens rest

def memberTokens : List (Content × Value) → List Token
  | [] => []
  | [(key, v)] => .string key :: .colon :: v.tokens
  | (key, v) :: rest => .string key :: .colon :: v.tokens ++ .comma :: memberTokens rest

end

/-! ## Scanning -/

/-- The tokens of a text that goes on with `cs`. -/
def scanFrom (s : Scan) (cs : List Char) : Option (List Token) := do
  let s ← cs.foldlM Scan.step s
  s.finish?

theorem scanFrom_cons (s : Scan) (c : Char) (cs : List Char) :
    scanFrom s (c :: cs) = (s.step c).bind fun s => scanFrom s cs := by
  rw [scanFrom, List.foldlM_cons]
  cases s.step c <;> rfl

/-- The text is at its end or goes on with a character that ends a word. -/
def Ends : List Char → Prop
  | [] => True
  | c :: _ => endsWord c = true

/-! ### Words -/

theorem scan_letters (ts : List Token) (rest : List Char) :
    ∀ (word letters : List Char), (∀ c ∈ word, endsWord c = false) →
      scanFrom ⟨.word letters, ts⟩ (word ++ rest) =
        scanFrom ⟨.word (word.reverse ++ letters), ts⟩ rest
  | [], _, _ => rfl
  | c :: word, letters, h => by
      have hstep : Scan.step ⟨.word letters, ts⟩ c = some ⟨.word (c :: letters), ts⟩ := by
        simp [Scan.step, h c List.mem_cons_self]
      rw [List.cons_append, scanFrom_cons, hstep, Option.bind_some,
        scan_letters ts rest word (c :: letters) fun d hd => h d (List.mem_cons_of_mem _ hd)]
      simp

/-- A word is read where the text ends or goes on with a character that ends it. -/
theorem scan_end {letters : List Char} {t : Token} (ht : Token.ofWord? letters.reverse = some t)
    {rest : List Char} (hrest : Ends rest) (ts : List Token) :
    scanFrom ⟨.word letters, ts⟩ rest = scanFrom ⟨.between, t :: ts⟩ rest := by
  cases rest with
  | nil => simp [scanFrom, Scan.finish?, ht]
  | cons c rest =>
      have hc : endsWord c = true := hrest
      rw [scanFrom_cons, scanFrom_cons]
      simp [Scan.step, hc, ht]

theorem start_of_not_endsWord {c : Char} (h : endsWord c = false) (ts : List Token) :
    Scan.start ts c = ⟨.word [c], ts⟩ := by
  simp only [endsWord, Bool.or_eq_false_iff, beq_eq_false_iff_ne] at h
  obtain ⟨⟨hblank, hquote⟩, hpunctuation⟩ := h
  have hnone : punctuation? c = none := by simpa using hpunctuation
  simp [Scan.start, hblank, hquote, hnone]

theorem scan_word (word : List Char) {t : Token} (hne : word ≠ [])
    (hword : word.any endsWord = false) (ht : Token.ofWord? word = some t)
    {rest : List Char} (hrest : Ends rest) (ts : List Token) :
    scanFrom ⟨.between, ts⟩ (word ++ rest) = scanFrom ⟨.between, t :: ts⟩ rest := by
  have hword : ∀ c ∈ word, endsWord c = false := fun c hc =>
    eq_false_of_ne_true (List.any_eq_false.mp hword c hc)
  cases word with
  | nil => exact absurd rfl hne
  | cons c word =>
      have hstep : Scan.step ⟨.between, ts⟩ c = some ⟨.word [c], ts⟩ :=
        congrArg some (start_of_not_endsWord (hword c List.mem_cons_self) ts)
      rw [List.cons_append, scanFrom_cons, hstep, Option.bind_some,
        scan_letters ts rest word [c] fun d hd => hword d (List.mem_cons_of_mem _ hd)]
      refine scan_end ?_ hrest ts
      rwa [List.reverse_append, List.reverse_reverse, List.reverse_singleton]

/-! ### Numbers -/

theorem not_endsWord_of_isDigit {c : Char} (h : c.isDigit = true) : endsWord c = false := by
  rw [Char.isDigit_iff_toNat] at h
  have hne (d : Char) (hd : ¬('0'.toNat ≤ d.toNat ∧ d.toNat ≤ '9'.toNat)) : c ≠ d := by
    rintro rfl
    exact hd h
  have hpunctuation : punctuation? c = none := by
    unfold punctuation?
    split <;> first | rfl | exact absurd rfl (hne _ (by decide))
  simp [endsWord, isJsonBlank, hpunctuation, hne ' ' (by decide), hne '\t' (by decide),
    hne '\n' (by decide), hne '\r' (by decide), hne '"' (by decide)]

theorem valueOfDigits_digits (n : Nat) : valueOfDigits (Text.digits n) = n := by
  have h := Text.ofDigitChars_digits n
  rw [Nat.ofDigitChars_eq_foldl] at h
  simpa only [valueOfDigits, Nat.mul_comm 10] using h

/-- The digits of a number, with a minus sign or none, are a numeral. -/
theorem ofChars?_digits (negative : Bool) (n : Nat) :
    Numeral.ofChars? ((if negative then ['-'] else []) ++ Text.digits n) =
      some (.whole negative n) := by
  have hall : ∀ c ∈ Text.digits n, c.isDigit = true := fun c => Text.isDigit_of_mem_digits
  have hwhole : (Text.digits n).takeWhile Char.isDigit = Text.digits n :=
    List.takeWhile_eq_self_iff.mpr hall
  have hrest : (Text.digits n).dropWhile Char.isDigit = [] := List.dropWhile_eq_nil_iff.mpr hall
  cases hdigits : Text.digits n with
  | nil => exact absurd hdigits (Text.digits_ne_nil n)
  | cons d ds =>
      have hsign : d ≠ '-' := by
        rintro rfl
        have := hall '-' (by rw [hdigits]; exact List.mem_cons_self)
        simp at this
      have hlead : d = '0' → ds = [] := by
        rintro rfl
        obtain rfl := Text.digits_eq_zero_cons hdigits
        simpa [Text.digits] using hdigits.symm
      rw [hdigits] at hwhole hrest
      have hvalue : valueOfDigits (d :: ds) = n := by rw [← hdigits, valueOfDigits_digits]
      cases negative with
      | true => simpa [Numeral.ofChars?, hwhole, hrest, hvalue] using hlead
      | false => simpa [Numeral.ofChars?, hsign, hwhole, hrest, hvalue] using hlead

theorem ofWord?_number {word : List Char} {n : Numeral} (h : Numeral.ofChars? word = some n) :
    Token.ofWord? word = some (.number n) := by
  have hne (keyword : List Char) (hk : Numeral.ofChars? keyword = none) : word ≠ keyword := by
    rintro rfl
    rw [hk] at h
    cases h
  rw [Token.ofWord?, if_neg (hne _ (by decide)), if_neg (hne _ (by decide)),
    if_neg (hne _ (by decide)), h]
  rfl

theorem scan_whole (negative : Bool) (n : Nat) {rest : List Char} (hrest : Ends rest)
    (ts : List Token) :
    scanFrom ⟨.between, ts⟩ (Numeral.chars (.whole negative n) ++ rest) =
      scanFrom ⟨.between, .number (.whole negative n) :: ts⟩ rest := by
  refine scan_word _ ?_ ?_ (ofWord?_number (ofChars?_digits negative n)) hrest ts
  · simp [Text.digits_ne_nil]
  · refine List.any_eq_false.mpr fun c hc => Bool.not_eq_true _ ▸ ?_
    rcases List.mem_append.mp hc with hc | hc
    · cases negative with
      | true =>
          obtain rfl := List.mem_singleton.mp hc
          rfl
      | false => cases hc
    · exact not_endsWord_of_isDigit (Text.isDigit_of_mem_digits hc)

/-! ### Strings -/

theorem not_surrogate (c : Char) :
    isHighSurrogate c.toNat = false ∧ isLowSurrogate c.toNat = false := by
  have h : c.toNat < 0xD800 ∨ 0xDFFF < c.toNat ∧ c.toNat < 0x110000 := c.valid
  simp only [isHighSurrogate, isLowSurrogate, Bool.and_eq_false_iff, decide_eq_false_iff_not]
  omega

theorem charsOfUnits?_toNat : ∀ cs : List Char, charsOfUnits? (cs.map Char.toNat) = some cs
  | [] => by rw [List.map_nil, charsOfUnits?]
  | c :: cs => by
      obtain ⟨hhigh, hlow⟩ := not_surrogate c
      rw [List.map_cons, charsOfUnits?.eq_def]
      simp [hhigh, hlow, charsOfUnits?_toNat cs, Char.ofNat_toNat]

theorem hexDigitValue?_hexDigit : ∀ n : Nat, n < 16 → hexDigitValue? (hexDigit n) = some n := by
  decide

/-- The characters of a literal stand for themselves or are escaped. -/
theorem scan_escape (c : Char) (units : List Nat) (ts : List Token) (rest : List Char) :
    scanFrom ⟨.string units, ts⟩ (escape c ++ rest) =
      scanFrom ⟨.string (c.toNat :: units), ts⟩ rest := by
  unfold escape
  split
  next h => subst h; rfl
  split
  next h => subst h; rfl
  split
  next h => subst h; rfl
  split
  next h => subst h; rfl
  split
  next h => subst h; rfl
  split
  next h => rw [h]; rfl
  split
  next h => rw [h]; rfl
  next hquote hbackslash _ _ _ _ _ =>
  split
  next hlow =>
    have hhigher := hexDigitValue?_hexDigit (c.toNat / 16) (by omega)
    have hlower := hexDigitValue?_hexDigit (c.toNat % 16) (by omega)
    have hzero : hexDigitValue? '0' = some 0 := rfl
    have hvalue : c.toNat / 16 * 16 + c.toNat % 16 = c.toNat := by omega
    simp [scanFrom_cons, Scan.step, hhigher, hlower, hzero, hvalue]
  next hhigh =>
    simp [scanFrom_cons, Scan.step, hquote, hbackslash, hhigh]

theorem scan_escapes (ts : List Token) (rest : List Char) :
    ∀ (cs : List Char) (units : List Nat),
      scanFrom ⟨.string units, ts⟩ (cs.flatMap escape ++ rest) =
        scanFrom ⟨.string ((cs.map Char.toNat).reverse ++ units), ts⟩ rest
  | [], _ => rfl
  | c :: cs, units => by
      rw [List.flatMap_cons, List.append_assoc, scan_escape, scan_escapes ts rest cs]
      simp

theorem scan_quoted (content : Content) (ts : List Token) (rest : List Char) :
    scanFrom ⟨.between, ts⟩ (quoted content ++ rest) =
      scanFrom ⟨.between, .string content :: ts⟩ rest := by
  cases content with
  | none => rfl
  | some s =>
      have hopen : scanFrom ⟨.between, ts⟩ (quoted (some s) ++ rest) =
          scanFrom ⟨.string [], ts⟩ (s.toList.flatMap escape ++ ('"' :: rest)) := by
        simp only [quoted, List.cons_append, List.append_assoc, List.nil_append]
        rfl
      have hclose (units : List Nat) : scanFrom ⟨.string units, ts⟩ ('"' :: rest) =
          scanFrom ⟨.between, .string (contentOfUnits units.reverse) :: ts⟩ rest := rfl
      have hcontent : contentOfUnits (s.toList.map Char.toNat) = some s := by
        rw [contentOfUnits, charsOfUnits?_toNat, Option.map_some, String.ofList_toList]
      rw [hopen, scan_escapes, hclose, List.append_nil, List.reverse_reverse, hcontent]

/-! ### Layout -/

theorem scan_spaces (ts : List Token) (rest : List Char) :
    ∀ n : Nat, scanFrom ⟨.between, ts⟩ (List.replicate n ' ' ++ rest) =
      scanFrom ⟨.between, ts⟩ rest
  | 0 => rfl
  | n + 1 => scan_spaces ts rest n

theorem scan_newLine (level : Nat) (ts : List Token) (rest : List Char) :
    scanFrom ⟨.between, ts⟩ (newLine level ++ rest) = scanFrom ⟨.between, ts⟩ rest :=
  scan_spaces ts rest (2 * level)

theorem scan_comma (ts : List Token) (rest : List Char) :
    scanFrom ⟨.between, ts⟩ (',' :: rest) = scanFrom ⟨.between, .comma :: ts⟩ rest := rfl

theorem scan_colon (ts : List Token) (rest : List Char) :
    scanFrom ⟨.between, ts⟩ (':' :: ' ' :: rest) = scanFrom ⟨.between, .colon :: ts⟩ rest := rfl

theorem ends_newLine (level : Nat) (rest : List Char) : Ends (newLine level ++ rest) := rfl

mutual

/-- The scanner takes the layout of a value to its tokens. -/
theorem scan_value (level : Nat) : ∀ (v : Value), v.Exact → ∀ {rest : List Char}, Ends rest →
    ∀ ts : List Token, scanFrom ⟨.between, ts⟩ (v.prettyChars level ++ rest) =
      scanFrom ⟨.between, v.tokens.reverse ++ ts⟩ rest
  | .null, _, rest, hrest, ts =>
      scan_word "null".toList (by decide) (by decide) rfl hrest ts
  | .bool true, _, rest, hrest, ts =>
      scan_word "true".toList (by decide) (by decide) rfl hrest ts
  | .bool false, _, rest, hrest, ts =>
      scan_word "false".toList (by decide) (by decide) rfl hrest ts
  | .number (.whole negative n), _, rest, hrest, ts => scan_whole negative n hrest ts
  | .string content, _, rest, _, ts => scan_quoted content ts rest
  | .array items, hexact, rest, _, ts => by
      have hitems := fun rest (hrest : Ends rest) ts => scan_items (level + 1) items hexact hrest ts
      cases items with
      | nil => rfl
      | cons v items =>
          have hopen : scanFrom ⟨.between, ts⟩
              ((Value.array (v :: items)).prettyChars level ++ rest) =
              scanFrom ⟨.between, .openArray :: ts⟩
                (prettyItems (level + 1) (v :: items) ++ (newLine level ++ (']' :: rest))) := by
            simp only [Value.prettyChars, List.cons_append, List.append_assoc, List.nil_append]
            rfl
          have hclose (ts : List Token) : scanFrom ⟨.between, ts⟩ (']' :: rest) =
              scanFrom ⟨.between, .closeArray :: ts⟩ rest := rfl
          rw [hopen, hitems _ (ends_newLine level _), scan_newLine, hclose]
          simp [Value.tokens]
  | .object members, hexact, rest, _, ts => by
      have hmembers := fun rest (hrest : Ends rest) ts =>
        scan_members (level + 1) members hexact hrest ts
      cases members with
      | nil => rfl
      | cons m members =>
          have hopen : scanFrom ⟨.between, ts⟩
              ((Value.object (m :: members)).prettyChars level ++ rest) =
              scanFrom ⟨.between, .openObject :: ts⟩
                (prettyMembers (level + 1) (m :: members) ++ (newLine level ++ ('}' :: rest))) := by
            simp only [Value.prettyChars, List.cons_append, List.append_assoc, List.nil_append]
            rfl
          have hclose (ts : List Token) : scanFrom ⟨.between, ts⟩ ('}' :: rest) =
              scanFrom ⟨.between, .closeObject :: ts⟩ rest := rfl
          rw [hopen, hmembers _ (ends_newLine level _), scan_newLine, hclose]
          simp [Value.tokens]

theorem scan_items (level : Nat) : ∀ (items : List Value), ItemsExact items →
    ∀ {rest : List Char}, Ends rest → ∀ ts : List Token,
      scanFrom ⟨.between, ts⟩ (prettyItems level items ++ rest) =
        scanFrom ⟨.between, (itemTokens items).reverse ++ ts⟩ rest
  | [], _, rest, _, ts => rfl
  | [v], hexact, rest, hrest, ts => by
      rw [prettyItems, List.append_assoc, scan_newLine, scan_value level v hexact.1 hrest,
        itemTokens]
  | v :: w :: items, hexact, rest, hrest, ts => by
      have hends : Ends (',' :: (prettyItems level (w :: items) ++ rest)) := rfl
      rw [prettyItems, List.append_assoc, List.append_assoc, scan_newLine, List.cons_append,
        scan_value level v hexact.1 hends, scan_comma, scan_items level (w :: items) hexact.2 hrest]
      · simp [itemTokens]
      · simp

theorem scan_members (level : Nat) : ∀ (members : List (Content × Value)), MembersExact members →
    ∀ {rest : List Char}, Ends rest → ∀ ts : List Token,
      scanFrom ⟨.between, ts⟩ (prettyMembers level members ++ rest) =
        scanFrom ⟨.between, (memberTokens members).reverse ++ ts⟩ rest
  | [], _, rest, _, ts => rfl
  | [(key, v)], hexact, rest, hrest, ts => by
      rw [prettyMembers, List.append_assoc, List.append_assoc, scan_newLine, scan_quoted,
        List.cons_append, List.cons_append, scan_colon, scan_value level v hexact.1 hrest,
        memberTokens]
      simp
  | (key, v) :: m :: members, hexact, rest, hrest, ts => by
      have hends : Ends (',' :: (prettyMembers level (m :: members) ++ rest)) := rfl
      rw [prettyMembers]
      · simp only [List.append_assoc, List.cons_append]
        rw [scan_newLine, scan_quoted, scan_colon, scan_value level v hexact.1 hends, scan_comma,
          scan_members level (m :: members) hexact.2 hrest]
        simp [memberTokens]
      · simp

end

/-! ## Reading -/

mutual

/-- The reader takes the tokens of a value to the value, whatever is open around it. -/
theorem foldlM_tokens : ∀ (v : Value) (mayClose : Bool) (stack : List Frame),
    v.tokens.foldlM Progress.step (.value mayClose stack) = some (.after v stack)
  | .null, _, _ => rfl
  | .bool _, _, _ => rfl
  | .number _, _, _ => rfl
  | .string _, _, _ => rfl
  | .array items, _, stack => by
      rw [Value.tokens, List.cons_append, List.foldlM_cons]
      exact foldlM_itemTokens items true [] stack fun _ => rfl
  | .object members, _, stack => by
      rw [Value.tokens, List.cons_append, List.foldlM_cons]
      exact foldlM_memberTokens members true [] stack fun _ => rfl

/-- The items of an array that has begun, and its end. An array without items may only end where
it has just begun. -/
theorem foldlM_itemTokens : ∀ (items : List Value) (mayClose : Bool) (acc : List Value)
    (stack : List Frame), (items = [] → mayClose = true) →
      (itemTokens items ++ [Token.closeArray]).foldlM Progress.step
          (.value mayClose (.array acc :: stack)) =
        some (.after (.array (acc.reverse ++ items)) stack)
  | [], mayClose, acc, stack, h => by
      rw [h rfl, List.append_nil]
      rfl
  | [v], mayClose, acc, stack, _ => by
      rw [itemTokens, List.foldlM_append, foldlM_tokens v, ← List.reverse_cons]
      rfl
  | v :: w :: items, mayClose, acc, stack, _ => by
      have hrest := foldlM_itemTokens (w :: items) false (v :: acc) stack nofun
      rw [List.reverse_cons, List.append_assoc] at hrest
      rw [itemTokens, List.append_assoc, List.foldlM_append, foldlM_tokens v, List.cons_append]
      · exact hrest
      · nofun

theorem foldlM_memberTokens : ∀ (members : List (Content × Value)) (mayClose : Bool)
    (acc : List (Content × Value)) (stack : List Frame), (members = [] → mayClose = true) →
      (memberTokens members ++ [Token.closeObject]).foldlM Progress.step (.key mayClose acc stack) =
        some (.after (.object (acc.reverse ++ members)) stack)
  | [], mayClose, acc, stack, h => by
      rw [h rfl, List.append_nil]
      rfl
  | [(key, v)], mayClose, acc, stack, _ => by
      have hvalue := foldlM_tokens v false (.object acc key :: stack)
      rw [memberTokens, List.cons_append, List.cons_append, List.foldlM_cons]
      show (v.tokens ++ [Token.closeObject]).foldlM Progress.step
        (.value false (.object acc key :: stack)) = _
      rw [List.foldlM_append, hvalue, ← List.reverse_cons]
      rfl
  | (key, v) :: m :: members, mayClose, acc, stack, _ => by
      have hvalue := foldlM_tokens v false (.object acc key :: stack)
      have hrest := foldlM_memberTokens (m :: members) false ((key, v) :: acc) stack nofun
      rw [List.reverse_cons, List.append_assoc] at hrest
      rw [memberTokens]
      · show (v.tokens ++ Token.comma :: memberTokens (m :: members) ++ [Token.closeObject]).foldlM
          Progress.step (.value false (.object acc key :: stack)) = _
        rw [List.append_assoc, List.foldlM_append, hvalue, List.cons_append]
        exact hrest
      · nofun

end

/-- What is written in the pretty layout is read back. -/
theorem read?_pretty {v : Value} (h : v.Exact) : Value.read? v.pretty = some v := by
  have htokens : tokenize (v.prettyChars 0) = some v.tokens := by
    have hscan := scan_value 0 v h (show Ends [] from trivial) []
    rw [List.append_nil, List.append_nil] at hscan
    exact hscan.trans (congrArg some (List.reverse_reverse _))
  have hread : Value.ofTokens? v.tokens = some v := by
    rw [Value.ofTokens?, foldlM_tokens v]
    rfl
  rw [Value.read?, Value.pretty, String.toList_ofList, htokens]
  exact hread

end ZoneHistory.Json
