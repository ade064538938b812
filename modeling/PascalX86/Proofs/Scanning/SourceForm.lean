import PascalX86.Proofs.Decimal.Reading
import PascalX86.Proofs.Scanning.Spaced

/-!
# Source forms of tokens

What every scanned token is like, and that its lexeme is scanned back into it. The two characters that
no quotation holds as they are, the newline and the apostrophe, make the only exceptions.
-/

set_option autoImplicit false

namespace PascalX86

open Scan

section Numbers

variable {p : Decimal.Parts} {x : Float}

theorem double_of_value? (value : p.value? = some x) (text : List Char) :
    double p.whole p.fraction p.size text = .token (.double x) := by
  have found : Decimal.nearest? (valueIn 10 (p.whole ++ p.fraction)) (p.size - p.fraction.length) =
      some x := value
  rw [double, found]

theorem exponent_power (value : p.value? = some x) (some : p.exponent ≠ []) (text : List Char) :
    exponent p.whole p.fraction text ('e' :: (p.minus ++ p.exponent ++ ['\n'])) =
      ⟨text.length + (p.minus ++ p.exponent).length, .token (.double x)⟩ := by
  have signed : p.minus = [] ∨ p.minus = ['+'] ∨ p.minus = ['-'] := by
    rw [Decimal.Parts.minus]
    split <;> simp
  have size : (if p.minus == ['-'] then -(valueIn 10 p.exponent : Int) else valueIn 10 p.exponent) =
      p.size := by
    rw [Decimal.Parts.minus, Decimal.Parts.size]
    split <;> rfl
  rw [List.append_assoc, exponent_signed 'e' signed some p.digits.2.2 not_digit_newline, size,
    double_of_value? value]

theorem numeral_parts (value : p.value? = some x) :
    numeral p.whole (p.point ++ (p.power ++ ['\n'])) = ⟨p.text.length - 1, .token (.double x)⟩ := by
  obtain ⟨none, point⟩ | ⟨some, point⟩ := p.point_cases <;>
    obtain ⟨whole, power, size⟩ | ⟨marked, power⟩ := p.power_cases
  · exact absurd p.marked (by simp [none, whole])
  · have length : p.text.length - 1 = p.whole.length + (p.minus ++ p.exponent).length := by
      simp [Decimal.Parts.text, point, power]
    have read := exponent_power value marked p.whole
    rw [none] at read
    rw [point, power, List.nil_append, List.cons_append, numeral_exponent rfl, length]
    exact read
  · have found := double_of_value? value (p.whole ++ '.' :: p.fraction)
    rw [size] at found
    rw [point, power, List.nil_append, List.cons_append,
      numeral_fraction some p.digits.2.1 not_digit_newline,
      fractional_stop (by simp [isExponentMark]), found]
    simp [Decimal.Parts.text, point, power]
  · have length : p.text.length - 1 =
        (p.whole ++ '.' :: p.fraction).length + (p.minus ++ p.exponent).length := by
      simp [Decimal.Parts.text, point, power]
      omega
    have mark : isExponentMark 'e' = true := rfl
    have boundary := p.boundary_power not_digit_newline
    rw [power] at boundary
    rw [point, power, List.cons_append, numeral_fraction some p.digits.2.1 boundary,
      List.cons_append, fractional, if_pos mark, length]
    exact exponent_power value marked _

theorem lexeme_parts (value : p.value? = some x) : Lexeme (.double x) p.text := by
  obtain ⟨c, digits, whole⟩ := List.exists_cons_of_ne_nil p.start
  have digit : c.isDigit = true := p.digits.1 c (by simp [whole])
  have inside : ∀ d ∈ digits, d.isDigit = true := fun d mem => p.digits.1 d (by simp [whole, mem])
  have boundary := p.boundary_point not_digit_newline
  have text : p.text = c :: (digits ++ (p.point ++ p.power)) := by
    rw [Decimal.Parts.text, whole, List.cons_append]
  have read : recognise c (digits ++ (p.point ++ p.power) ++ ['\n']) =
      ⟨(digits ++ (p.point ++ p.power)).length, .token (.double x)⟩ := by
    have numeral := numeral_parts value
    rw [whole, text] at numeral
    rw [recognise_of_isDigit digit, number_eq_numeral, List.append_assoc, List.append_assoc,
      (takeWhile_run inside boundary).1, (takeWhile_run inside boundary).2]
    exact numeral
  rw [text]
  exact (Found.read (visible_of_isDigit c digit) read).lexeme

end Numbers

section Literals

/-- Whatever a literal holds, its apostrophes doubled, is found between apostrophes. -/
theorem quotation_doubled {content : List Char} (line : '\n' ∉ content) :
    quotation (Text.doubled content ++ ['\'', '\n']) =
      some (content, (Text.doubled content).length + 1) := by
  induction content with
  | nil => rfl
  | cons c content ih =>
      rw [List.mem_cons, not_or] at line
      have inner := ih line.2
      by_cases apostrophe : c = '\''
      · subst apostrophe
        simp [Text.doubled, quotation, inner]
      · rw [Text.doubled, if_neg apostrophe, List.cons_append,
          quotation.eq_5 _ _ (fun _ eq _ => apostrophe eq) apostrophe (Ne.symm line.1), inner]
        rfl

theorem lexeme_literal {content : List Char} (line : '\n' ∉ content) :
    Lexeme (literal content) ('\'' :: (Text.doubled content ++ ['\''])) := by
  have read : recognise '\'' (Text.doubled content ++ ['\''] ++ ['\n']) =
      ⟨(Text.doubled content ++ ['\'']).length, .token (literal content)⟩ := by
    change quoted _ = _
    rw [quoted, List.append_assoc, List.cons_append, List.nil_append, quotation_doubled line]
    simp
  exact (Found.read rfl read).lexeme

theorem legible_string {text : String} (line : '\n' ∉ text.toList)
    (long : ∀ c, text.toList = [c] → 256 ≤ c.toNat) : (Token.string text).Legible := by
  have literal : literal text.toList = .string text := by
    unfold Scan.literal
    split
    · next c single =>
      rw [if_neg (Nat.not_lt.mpr (long c single)), String.ofList_toList]
    · rw [String.ofList_toList]
  have form : (Token.string text).lexeme.toList = '\'' :: (Text.doubled text.toList ++ ['\'']) := by
    simp [Token.lexeme, Text.quotedText]
  rw [Token.Legible, form, ← literal]
  exact lexeme_literal line

theorem toNat_ofCode (code : UInt8) : (Char.ofNat code.toNat).toNat = code.toNat := by
  have valid : code.toNat.isValidChar := .inl (by have := code.toNat_lt; omega)
  rw [Char.ofNat, dif_pos valid]
  rfl

theorem ofNat_ne {code other : UInt8} (ne : code ≠ other) :
    Char.ofNat code.toNat ≠ Char.ofNat other.toNat := by
  intro eq
  have codes := congrArg Char.toNat eq
  rw [toNat_ofCode, toNat_ofCode] at codes
  exact ne (UInt8.toNat_inj.mp codes)

theorem legible_char {code : UInt8} (newline : code ≠ 10) (apostrophe : code ≠ 39) :
    (Token.char code).Legible := by
  have line : '\n' ∉ [Char.ofNat code.toNat] := fun mem =>
    ofNat_ne newline (List.mem_singleton.mp mem).symm
  have other : Char.ofNat code.toNat ≠ '\'' := ofNat_ne apostrophe
  have literal : literal [Char.ofNat code.toNat] = .char code := by
    rw [Scan.literal, toNat_ofCode, if_pos code.toNat_lt, UInt8.ofNat_toNat]
  have form : (Token.char code).lexeme.toList =
      '\'' :: (Text.doubled [Char.ofNat code.toNat] ++ ['\'']) := by
    simp [Token.lexeme, Text.quotedCode, Text.doubled, other]
  rw [Token.Legible, form, ← literal]
  exact lexeme_literal line

theorem valueIn_toDigits (n : Nat) : valueIn 10 (Nat.toDigits 10 n) = n := by
  have same : valueIn 10 (Nat.toDigits 10 n) = Nat.ofDigitChars 10 (Nat.toDigits 10 n) 0 := by
    rw [Nat.ofDigitChars_eq_foldl, valueIn]
    refine List.foldl_ext _ _ _ fun value c mem => ?_
    rw [digitValue, if_pos (Decimal.digits_toDigits n c mem)]
  rw [same, Nat.ofDigitChars_ten_toDigits]

theorem legible_integer {n : Nat} (small : n < 2147483648) :
    (Token.integer (Int32.ofNat n)).Legible := by
  have form : (Token.integer (Int32.ofNat n)).lexeme.toList = Nat.toDigits 10 n := by
    have value : (Int32.ofNat n).toInt = n := Int32.toInt_ofNat_of_lt (by omega)
    change (toString (Int32.ofNat n).toInt).toList = _
    rw [value]
    exact Nat.toList_repr
  have digits := Decimal.digits_toDigits n
  obtain ⟨c, tail, eq⟩ := List.exists_cons_of_ne_nil (Nat.toDigits_ne_nil (n := n) (b := 10))
  have value : integer 10 (c :: tail) = .ok (.integer (Int32.ofNat n)) := by
    rw [← eq, integer, valueIn_toDigits]
    exact if_pos small
  rw [eq, List.forall_mem_cons] at digits
  have read : recognise c (tail ++ ['\n']) = ⟨tail.length, .token (.integer (Int32.ofNat n))⟩ := by
    rw [recognise_of_isDigit digits.1, number_eq_numeral,
      (takeWhile_run digits.2 not_digit_newline).1, (takeWhile_run digits.2 not_digit_newline).2,
      numeral_stop (by simp [isNumeralMark, isExponentMark]), value]
    rfl
  rw [Token.Legible, form, eq]
  exact (Found.read (visible_of_isDigit c digits.1) read).lexeme

theorem legible_double {x : Float} (finite : x.isFinite = true)
    (unsigned : Decimal.sign x.toBits = "")
    (back : Decimal.read? (Decimal.shortestText x).toList = some x) : (Token.double x).Legible := by
  obtain ⟨p, text⟩ := Decimal.exists_parts_of_finite finite unsigned
  rw [text, Decimal.Parts.read?_text] at back
  have form : (Token.double x).lexeme.toList = p.text := text
  rw [Token.Legible, form]
  exact lexeme_parts back

end Literals

section Scannable

/-- The tokens that scanning finds, in what is known of their contents. -/
inductive Token.Scannable : Token → Prop where
  | name {n : Name} (word : n.IsIdentifier) : Scannable (.name n)
  | keyword (k : Keyword) : Scannable (.keyword k)
  | integer {n : Nat} (small : n < 2147483648) : Scannable (.integer (Int32.ofNat n))
  | double {x : Float} {digits : Nat} {place : Int} (nearest : Decimal.nearest? digits place = some x) :
      Scannable (.double x)
  | char (code : UInt8) : Scannable (.char code)
  | string {text : String} (line : '\n' ∉ text.toList)
      (long : ∀ c, text.toList = [c] → 256 ≤ c.toNat) : Scannable (.string text)
  | mark (m : Mark) : Scannable (.mark m)

/-- What a recogniser finds is scannable, if it finds a token at all. -/
def Scan.Meaning.Sound : Meaning → Prop
  | .token t | .rangeFrom t => t.Scannable
  | .skipped | .failed _ => True

theorem sound_integer (base : Nat) (digits : List Char) : (meaningOf (integer base digits)).Sound := by
  rw [integer]
  split
  · next small => exact .integer small
  · trivial

theorem sound_double (whole fraction : List Char) (exponent : Int) (text : List Char) :
    (double whole fraction exponent text).Sound := by
  unfold double
  split
  · next found => exact .double found
  · trivial

theorem sound_word {c : Char} (letter : isLetter c = true) (rest : List Char) :
    (word c rest).meaning.Sound := by
  unfold word
  dsimp only
  split
  · exact .keyword _
  · next none =>
    refine .name ⟨⟨c, rest.takeWhile isWordChar, ?_, letter, fun d mem => ?_⟩, none⟩
    · exact String.toList_ofList
    · exact List.mem_takeWhile_imp mem

theorem quotation_line {rest content : List Char} {n : Nat} (h : quotation rest = some (content, n)) :
    '\n' ∉ content := by
  induction rest using quotation.induct generalizing content n with
  | case1 => cases h
  | case2 rest ih =>
      simp only [quotation, Option.map_eq_some_iff, Prod.mk.injEq, Prod.exists] at h
      obtain ⟨text, m, inner, rfl, -⟩ := h
      simpa using ih inner
  | case3 rest single =>
      rw [quotation.eq_3 _ single] at h
      cases h
      exact List.not_mem_nil
  | case4 => cases h
  | case5 c rest _ other line ih =>
      rw [quotation.eq_5 _ _ (fun _ eq _ => other eq) other line] at h
      simp only [Option.map_eq_some_iff, Prod.mk.injEq, Prod.exists] at h
      obtain ⟨text, m, inner, rfl, -⟩ := h
      rw [List.mem_cons, not_or]
      exact ⟨fun eq => line eq.symm, ih inner⟩

theorem sound_literal {content : List Char} (line : '\n' ∉ content) : (literal content).Scannable := by
  unfold literal
  split
  · next c =>
    split
    · exact .char _
    · next long =>
      refine .string (by simpa using line) fun d single => ?_
      obtain rfl : c = d := by simpa using single
      exact Nat.not_lt.mp long
  · next other =>
    refine .string (by simpa using line) fun c single => ?_
    exact absurd (by simpa using single) (other c)

theorem sound_quoted (rest : List Char) : (quoted rest).meaning.Sound := by
  unfold quoted
  split
  · next content n found => exact sound_literal (quotation_line found)
  · trivial

theorem sound_hex (rest : List Char) : (hex rest).meaning.Sound := by
  unfold hex
  dsimp only
  split
  · trivial
  · exact sound_integer ..

theorem sound_charCode (rest : List Char) : (charCode rest).meaning.Sound := by
  unfold charCode
  dsimp only
  split
  · trivial
  · split
    · exact .char _
    · trivial

theorem sound_comment (rest : List Char) (opening : Nat) (length : Option Nat) :
    (comment rest opening length).meaning.Sound := by
  unfold comment
  split <;> trivial

theorem sound_exponent (whole fraction text rest : List Char) :
    (exponent whole fraction text rest).meaning.Sound := by
  unfold exponent
  dsimp only
  split
  · trivial
  · exact sound_double ..

theorem sound_number (c : Char) (rest : List Char) : (number c rest).meaning.Sound := by
  unfold number
  dsimp only
  split
  · have bound := sound_integer 10 (c :: rest.takeWhile Char.isDigit)
    split
    · next value => rwa [value] at bound
    · trivial
  · split
    · trivial
    · split
      · split
        · exact sound_exponent ..
        · exact sound_double ..
      · exact sound_double ..
  · split
    · exact sound_exponent ..
    · exact sound_integer ..
  · exact sound_integer ..

theorem sound_recognise (c : Char) (rest : List Char) : (recognise c rest).meaning.Sound := by
  unfold recognise
  split
  case h_10 =>
    split
    · exact sound_comment ..
    · exact .mark _
  case h_11 | h_13 | h_14 => split <;> exact .mark _
  case h_12 => split <;> exact .mark _
  case h_15 =>
    split
    · trivial
    · exact .mark _
  case h_16 => exact sound_comment ..
  case h_17 => exact sound_hex rest
  case h_18 => exact sound_charCode rest
  case h_19 => exact sound_quoted rest
  case h_20 =>
    split
    · next letter => exact sound_word letter rest
    · split
      · exact sound_number ..
      · trivial
  all_goals exact .mark _

theorem scannable_of_items {ending : Ending} {p : Point} {t : Located Token}
    (scanned : .ok t ∈ items ending p) : t.value = .endOfFile ∨ t.value.Scannable := by
  fun_induction items ending p with
  | case1 p none =>
      obtain rfl : t = _ := Except.ok.inj (List.mem_singleton.mp scanned)
      exact .inl rfl
  | case2 | case4 | case8 => cases List.mem_singleton.mp scanned
  | case3 p c rest eq blank ih => exact ih scanned
  | case5 p c rest eq visible reading ahead next whole skipped ih => exact ih scanned
  | case6 p c rest eq visible reading ahead next whole u token ih =>
      have sound := sound_recognise c rest
      rw [show (recognise c rest).meaning = .token u from token] at sound
      rcases List.mem_cons.mp scanned with same | later
      · obtain rfl : t = _ := Except.ok.inj same
        exact .inr sound
      · exact ih later
  | case7 p c rest eq visible reading ahead next whole u range dots ih =>
      have sound := sound_recognise c rest
      rw [show (recognise c rest).meaning = .rangeFrom u from range] at sound
      rcases List.mem_cons.mp scanned with same | later
      · obtain rfl : t = _ := Except.ok.inj same
        exact .inr sound
      · rcases List.mem_cons.mp later with same | later
        · obtain rfl : t = _ := Except.ok.inj same
          exact .inr (.mark _)
        · exact ih later

theorem Token.Scannable.legible {t : Token} (h : t.Scannable) (newline : t ≠ .char 10)
    (apostrophe : t ≠ .char 39)
    (back : ∀ x, t = .double x → Decimal.read? (Decimal.shortestText x).toList = some x) :
    t.Legible := by
  cases h with
  | name word => exact word.legible
  | keyword k => exact k.legible
  | integer small => exact legible_integer small
  | double nearest =>
      exact legible_double (Decimal.isFinite_of_nearest? nearest) (Decimal.sign_of_nearest? nearest)
        (back _ rfl)
  | char code =>
      exact legible_char (fun eq => newline (congrArg Token.char eq))
        fun eq => apostrophe (congrArg Token.char eq)
  | string line long => exact legible_string line long
  | mark m => exact m.legible

end Scannable

section Lexemes

/-- What a text of one token consists of when it is scanned. -/
def Source.values (source : Source) : Except (Located LexicalError) (List Token) :=
  source.tokens.map (List.map Located.value)

theorem Scan.Lexeme.mem_scan {t : Token} {text : List Char} (h : Lexeme t text) (name : String) :
    ∃ span, .ok ⟨t, span⟩ ∈ (Source.ofText name (String.ofList text)).scan := by
  obtain ⟨ts, accepted, values⟩ := exists_of_map_eq_ok (h.tokens name)
  obtain ⟨first, rest, rfl, rfl, -⟩ := List.map_eq_cons_iff.mp values
  refine ⟨first.span, ?_⟩
  rw [map_ok_of_mapM accepted]
  exact List.mem_cons_self

theorem Token.Legible.values {t : Token} (h : t.Legible) (name : String) :
    (Source.ofText name t.lexeme).values = .ok [t, .endOfFile] := by
  have values := Scan.Lexeme.tokens h name
  rwa [String.ofList_toList] at values

/-- A newline ends the line that its quotation starts in, and an apostrophe is the first of two. -/
theorem values_unquotable {code : UInt8} (unquotable : code = 10 ∨ code = 39) (name : String)
    (tokens : List Token) : (Source.ofText name (Token.char code).lexeme).values ≠ .ok tokens := by
  have fails : (Source.ofText "" (Token.char code).lexeme).tokens.toOption.isNone = true := by
    obtain rfl | rfl := unquotable <;> decide +kernel
  have same : (Source.ofText name (Token.char code).lexeme).tokens =
      (Source.ofText "" (Token.char code).lexeme).tokens := rfl
  intro scanned
  rw [Source.values, same] at scanned
  cases answer : (Source.ofText "" (Token.char code).lexeme).tokens with
  | error e =>
      rw [answer] at scanned
      cases scanned
  | ok ts =>
      rw [answer] at fails
      cases fails

/-- Every scanned token but the end of a file is scanned back from its lexeme, with nothing around it,
except for the two characters that no quotation holds. Of a double this takes that its text reads
back. -/
theorem Source.lexemes_scanned {source : Source} {t : Located Token} (scanned : .ok t ∈ source.scan)
    (notEnd : t.value ≠ .endOfFile)
    (back : ∀ x, t.value = .double x → Decimal.read? (Decimal.shortestText x).toList = some x)
    (name : String) :
    (Source.ofText name t.value.lexeme).values = .ok [t.value, .endOfFile] ↔
      t.value ≠ .char 10 ∧ t.value ≠ .char 39 := by
  constructor
  · intro again
    constructor
    · intro newline
      rw [newline] at again
      exact values_unquotable (.inl rfl) name _ again
    · intro apostrophe
      rw [apostrophe] at again
      exact values_unquotable (.inr rfl) name _ again
  · rintro ⟨newline, apostrophe⟩
    have scannable := (scannable_of_items scanned).resolve_left notEnd
    exact (scannable.legible newline apostrophe back).values name

/-- A zero behind a fraction is not kept, and the double is. -/
theorem Source.fraction_scanned : ∃ span,
    .ok ⟨.double 1.5, span⟩ ∈ (Source.ofText "input.pas" "1.50").scan ∧
      Decimal.read? (Decimal.shortestText 1.5).toList = some 1.5 ∧
        (Source.ofText "input.pas" (Token.double 1.5).lexeme).values =
          .ok [.double 1.5, .endOfFile] := by
  let parts : Decimal.Parts :=
    ⟨['1'], ['5', '0'], false, [], by simp, .inl (by simp),
      ⟨List.all_eq_true.mp rfl, List.all_eq_true.mp rfl, nofun⟩⟩
  have lexeme : Lexeme (.double 1.5) parts.text := lexeme_parts (by decide +kernel)
  obtain ⟨span, scanned⟩ := lexeme.mem_scan "input.pas"
  have back : Decimal.read? (Decimal.shortestText 1.5).toList = some 1.5 := by decide +kernel
  have values := (Source.lexemes_scanned scanned nofun (by rintro x ⟨⟩; exact back) "input.pas").mpr
    ⟨nofun, nofun⟩
  exact ⟨span, scanned, back, values⟩

/-- An apostrophe is written doubled in a source, but not in its lexeme. -/
theorem Source.apostrophe_lost : ¬ ∀ (source : Source) (t : Located Token) (name : String),
    .ok t ∈ source.scan → t.value ≠ .endOfFile →
      (∀ x, t.value = .double x → Decimal.read? (Decimal.shortestText x).toList = some x) →
        (Source.ofText name t.value.lexeme).values = .ok [t.value, .endOfFile] := by
  intro scans
  have lexeme : Lexeme (.char 39) ['\'', '\'', '\'', '\''] := @lexeme_literal ['\''] (by simp)
  obtain ⟨span, scanned⟩ := lexeme.mem_scan "input.pas"
  have again := scans _ ⟨.char 39, span⟩ "input.pas" scanned nofun nofun
  exact values_unquotable (.inr rfl) "input.pas" _ again

end Lexemes

end PascalX86
