import Mathlib
import Snpm.Library.Utf8
import Snpm.Lockfile.Compat.BunJsonc

/-!
The blanking of comments and trailing commas on the bytes of a `bun.lock`, as the
code works on them: nothing moves, newlines and strings stay, and the bytes that
come out are a text.
-/
namespace Snpm.Compat.Bun

section Bytes

/-- The byte of an ASCII character. -/
def ascii (c : Char) : UInt8 := UInt8.ofNat c.toNat

def isWhitespaceByte (b : UInt8) : Bool :=
  b = ascii ' ' || b = ascii '\t' || b = ascii '\n' || b = ascii '\x0c' || b = ascii '\r'

/-- A closing bracket is next, after white space. -/
def closesNextByte (bs : List UInt8) : Bool :=
  match bs.dropWhile isWhitespaceByte with
  | b :: _ => b = ascii '\x7d' || b = ascii ']'
  | [] => false

def stringState (b : UInt8) : StripState :=
  if b = ascii '\\' then .escaped else if b = ascii '"' then .plain else .string

def plainState (b : UInt8) : StripState := if b = ascii '"' then .string else .plain

def commentByte (b : UInt8) : UInt8 := if b = ascii '\n' then ascii '\n' else ascii ' '

/-- The two bytes that begin and end a comment are looked at together. -/
def stripBytes : StripState → List UInt8 → List UInt8
  | _, [] => []
  | .string, b :: bs => b :: stripBytes (stringState b) bs
  | .escaped, b :: bs => b :: stripBytes .string bs
  | .lineComment, b :: bs =>
      if b = ascii '\n' then b :: stripBytes .plain bs else ascii ' ' :: stripBytes .lineComment bs
  | .blockComment, [b] => [commentByte b]
  | .blockComment, b :: c :: bs =>
      if b = ascii '*' ∧ c = ascii '/' then ascii ' ' :: ascii ' ' :: stripBytes .plain bs
      else commentByte b :: stripBytes .blockComment (c :: bs)
  | .plain, [b] => [b]
  | .plain, b :: c :: bs =>
      if b = ascii '/' ∧ c = ascii '/' then ascii ' ' :: ascii ' ' :: stripBytes .lineComment bs
      else if b = ascii '/' ∧ c = ascii '*' then
        ascii ' ' :: ascii ' ' :: stripBytes .blockComment bs
      else if b = ascii ',' ∧ closesNextByte (c :: bs) = true then
        ascii ' ' :: stripBytes .plain (c :: bs)
      else b :: stripBytes (plainState b) (c :: bs)

/-- The conversion back into a text; `none` stands for its panic. -/
def stripJsoncBytes (input : String) : Option String :=
  String.fromUTF8? ⟨(stripBytes .plain (Text.utf8 input)).toArray⟩

/-! One equation for each state, as in the reading by characters. -/

theorem stripBytes_nil (st : StripState) : stripBytes st [] = [] := by
  cases st <;> rfl

theorem stripBytes_string (b : UInt8) (bs : List UInt8) :
    stripBytes .string (b :: bs) = b :: stripBytes (stringState b) bs := rfl

theorem stripBytes_escaped (b : UInt8) (bs : List UInt8) :
    stripBytes .escaped (b :: bs) = b :: stripBytes .string bs := rfl

theorem stripBytes_lineComment (b : UInt8) (bs : List UInt8) : stripBytes .lineComment (b :: bs) =
    if b = ascii '\n' then b :: stripBytes .plain bs
    else ascii ' ' :: stripBytes .lineComment bs := rfl

theorem stripBytes_closeBlock (bs : List UInt8) :
    stripBytes .blockComment (ascii '*' :: ascii '/' :: bs) =
      ascii ' ' :: ascii ' ' :: stripBytes .plain bs := rfl

theorem stripBytes_blockComment {b : UInt8} {bs : List UInt8}
    (h : ¬ (b = ascii '*' ∧ bs.head? = some (ascii '/'))) :
    stripBytes .blockComment (b :: bs) = commentByte b :: stripBytes .blockComment bs := by
  cases bs with
  | nil => rfl
  | cons c bs => exact if_neg fun hc => h ⟨hc.1, congrArg some hc.2⟩

theorem stripBytes_openLine (bs : List UInt8) :
    stripBytes .plain (ascii '/' :: ascii '/' :: bs) =
      ascii ' ' :: ascii ' ' :: stripBytes .lineComment bs := rfl

theorem stripBytes_openBlock (bs : List UInt8) :
    stripBytes .plain (ascii '/' :: ascii '*' :: bs) =
      ascii ' ' :: ascii ' ' :: stripBytes .blockComment bs := rfl

theorem stripBytes_plain {b : UInt8} {bs : List UInt8}
    (h : b = ascii '/' → bs.head? ≠ some (ascii '/') ∧ bs.head? ≠ some (ascii '*')) :
    stripBytes .plain (b :: bs) =
      if b = ascii ',' ∧ closesNextByte bs = true then ascii ' ' :: stripBytes .plain bs
      else b :: stripBytes (plainState b) bs := by
  cases bs with
  | nil =>
      have hcloses : ¬ (b = ascii ',' ∧ closesNextByte [] = true) := fun hc => by cases hc.2
      rw [if_neg hcloses, stripBytes_nil]
      rfl
  | cons c bs =>
      have hline : ¬ (b = ascii '/' ∧ c = ascii '/') := fun hc => (h hc.1).1 (congrArg some hc.2)
      have hblock : ¬ (b = ascii '/' ∧ c = ascii '*') := fun hc => (h hc.1).2 (congrArg some hc.2)
      rw [stripBytes, if_neg hline, if_neg hblock]

end Bytes

section Lengths

/-- What a byte is turned into: a newline stays one, and nothing else becomes one. -/
def Blanks (b b' : UInt8) : Prop := b' = b ∨ (b' = ascii ' ' ∧ b ≠ ascii '\n')

theorem Blanks.kept (b : UInt8) : Blanks b b := .inl rfl

theorem Blanks.of_ne {b : UInt8} (h : b ≠ ascii '\n') : Blanks b (ascii ' ') := .inr ⟨rfl, h⟩

theorem Blanks.of_eq {b c : UInt8} (h : b = c) (hc : c ≠ ascii '\n') : Blanks b (ascii ' ') :=
  Blanks.of_ne (by rw [h]; exact hc)

theorem blanks_commentByte (b : UInt8) : Blanks b (commentByte b) := by
  unfold commentByte
  split
  · rename_i heq
    rw [heq]
    exact Blanks.kept _
  · rename_i hne
    exact Blanks.of_ne hne

/-- Every byte is kept or blanked where it stands. -/
theorem stripBytes_forall₂ (st : StripState) (bs : List UInt8) :
    List.Forall₂ Blanks bs (stripBytes st bs) := by
  have hslash : ascii '/' ≠ ascii '\n' := by decide
  have hstar : ascii '*' ≠ ascii '\n' := by decide
  have hcomma : ascii ',' ≠ ascii '\n' := by decide
  fun_induction stripBytes st bs with
  | case1 => exact .nil
  | case2 b bs ih => exact .cons (Blanks.kept b) ih
  | case3 b bs ih => exact .cons (Blanks.kept b) ih
  | case4 bs ih => exact .cons (Blanks.kept _) ih
  | case5 b bs h ih => exact .cons (Blanks.of_ne h) ih
  | case6 b => exact .cons (blanks_commentByte b) .nil
  | case7 b c bs h ih =>
      exact .cons (Blanks.of_eq h.1 hstar) (.cons (Blanks.of_eq h.2 hslash) ih)
  | case8 b c bs h ih => exact .cons (blanks_commentByte b) ih
  | case9 b => exact .cons (Blanks.kept b) .nil
  | case10 b c bs h ih =>
      exact .cons (Blanks.of_eq h.1 hslash) (.cons (Blanks.of_eq h.2 hslash) ih)
  | case11 b c bs _ h ih =>
      exact .cons (Blanks.of_eq h.1 hslash) (.cons (Blanks.of_eq h.2 hstar) ih)
  | case12 b c bs _ _ h ih => exact .cons (Blanks.of_eq h.1 hcomma) ih
  | case13 b c bs _ _ _ ih => exact .cons (Blanks.kept b) ih

theorem length_stripBytes (st : StripState) (bs : List UInt8) :
    (stripBytes st bs).length = bs.length :=
  (stripBytes_forall₂ st bs).length_eq.symm

theorem newline_of_blanks {b b' : UInt8} (h : Blanks b b') : b' = ascii '\n' ↔ b = ascii '\n' := by
  cases h with
  | inl heq => rw [heq]
  | inr hblank =>
      rw [hblank.1]
      exact ⟨fun h => absurd h (by decide), fun h => absurd h hblank.2⟩

theorem newline_stripBytes (st : StripState) (bs : List UInt8) (i : Nat) :
    (stripBytes st bs)[i]? = some (ascii '\n') ↔ bs[i]? = some (ascii '\n') := by
  have hall := stripBytes_forall₂ st bs
  generalize stripBytes st bs = out at hall
  induction hall generalizing i with
  | nil => exact Iff.rfl
  | cons hblanks _ ih =>
      cases i with
      | zero =>
          rw [List.getElem?_cons_zero, List.getElem?_cons_zero, Option.some.injEq,
            Option.some.injEq]
          exact newline_of_blanks hblanks
      | succ i =>
          rw [List.getElem?_cons_succ, List.getElem?_cons_succ]
          exact ih i

end Lengths

section Literals

/-- The inside of a string literal. -/
inductive LiteralBody : List UInt8 → Prop where
  | nil : LiteralBody []
  | byte {b : UInt8} {bs : List UInt8} (hquote : b ≠ ascii '"') (hescape : b ≠ ascii '\\')
      (h : LiteralBody bs) : LiteralBody (b :: bs)
  | escape (b : UInt8) {bs : List UInt8} (h : LiteralBody bs) :
      LiteralBody (ascii '\\' :: b :: bs)

/-- The bytes `front` of a document in front of `rest` end outside strings and comments. -/
inductive Outside : List UInt8 → List UInt8 → Prop where
  | start (rest : List UInt8) : Outside [] rest
  | byte {front rest : List UInt8} {b : UInt8} (hquote : b ≠ ascii '"')
      (hslash : b = ascii '/' → rest.head? ≠ some (ascii '/') ∧ rest.head? ≠ some (ascii '*'))
      (h : Outside front (b :: rest)) : Outside (front ++ [b]) rest
  | lineComment {front text rest : List UInt8} (htext : ascii '\n' ∉ text)
      (hrest : rest = [] ∨ rest.head? = some (ascii '\n'))
      (h : Outside front (ascii '/' :: ascii '/' :: (text ++ rest))) :
      Outside (front ++ ascii '/' :: ascii '/' :: text) rest
  | blockComment {front text rest : List UInt8} (htext : ¬ [ascii '*', ascii '/'] <:+: text)
      (h : Outside front (ascii '/' :: ascii '*' :: (text ++ ascii '*' :: ascii '/' :: rest))) :
      Outside (front ++ ascii '/' :: ascii '*' :: (text ++ [ascii '*', ascii '/'])) rest
  | literal {front body rest : List UInt8} (hbody : LiteralBody body)
      (h : Outside front (ascii '"' :: (body ++ ascii '"' :: rest))) :
      Outside (front ++ ascii '"' :: (body ++ [ascii '"'])) rest

/-- A string literal in front of `rest`; without a closing quote it is all that is left. -/
inductive IsLiteral : List UInt8 → List UInt8 → Prop where
  | closed {body rest : List UInt8} (hbody : LiteralBody body) :
      IsLiteral (ascii '"' :: (body ++ [ascii '"'])) rest
  | unclosed {body : List UInt8} (hbody : LiteralBody body) : IsLiteral (ascii '"' :: body) []
  | broken {body : List UInt8} (hbody : LiteralBody body) :
      IsLiteral (ascii '"' :: (body ++ [ascii '\\'])) []

theorem stripBytes_body {body : List UInt8} (h : LiteralBody body) (rest : List UInt8) :
    stripBytes .string (body ++ rest) = body ++ stripBytes .string rest := by
  induction h with
  | nil => rfl
  | @byte b bs hquote hescape _ ih =>
      have hstate : stringState b = .string := by
        rw [stringState, if_neg hescape, if_neg hquote]
      rw [List.cons_append, stripBytes_string, hstate, ih, List.cons_append]
  | @escape b bs _ ih =>
      rw [List.cons_append, List.cons_append, stripBytes_string]
      change ascii '\\' :: stripBytes .escaped (b :: (bs ++ rest)) = _
      rw [stripBytes_escaped, ih]
      rfl

theorem stripBytes_quote (rest : List UInt8) :
    stripBytes .plain (ascii '"' :: rest) = ascii '"' :: stripBytes .string rest := by
  have hslash : ascii '"' ≠ ascii '/' := by decide
  have hcomma : ascii '"' ≠ ascii ',' := by decide
  rw [stripBytes_plain fun h => absurd h hslash, if_neg fun h => hcomma h.1]
  rfl

theorem stripBytes_closed {body : List UInt8} (h : LiteralBody body) (rest : List UInt8) :
    stripBytes .plain (ascii '"' :: (body ++ ascii '"' :: rest)) =
      ascii '"' :: (body ++ ascii '"' :: stripBytes .plain rest) := by
  rw [stripBytes_quote, stripBytes_body h]
  rfl

theorem stripBytes_line {text rest : List UInt8} (htext : ascii '\n' ∉ text)
    (hrest : rest = [] ∨ rest.head? = some (ascii '\n')) :
    stripBytes .lineComment (text ++ rest) =
      List.replicate text.length (ascii ' ') ++ stripBytes .plain rest := by
  induction text with
  | nil =>
      cases hrest with
      | inl hnil => rw [hnil]; rfl
      | inr hhead =>
          obtain ⟨bs, hbs⟩ := List.head?_eq_some_iff.mp hhead
          rw [hbs, List.nil_append, stripBytes_lineComment, if_pos rfl,
            stripBytes_plain fun h => absurd h (by decide), if_neg fun h => absurd h.1 (by decide)]
          rfl
  | cons b text ih =>
      rw [List.mem_cons, not_or] at htext
      rw [List.cons_append, stripBytes_lineComment, if_neg (Ne.symm htext.1), ih htext.2]
      rfl

theorem stripBytes_block {text rest : List UInt8} (htext : ¬ [ascii '*', ascii '/'] <:+: text) :
    ∃ out, out.length = text.length ∧
      stripBytes .blockComment (text ++ ascii '*' :: ascii '/' :: rest) =
        out ++ ascii ' ' :: ascii ' ' :: stripBytes .plain rest := by
  induction text with
  | nil => exact ⟨[], rfl, rfl⟩
  | cons b text ih =>
      have hrest : ¬ [ascii '*', ascii '/'] <:+: text := fun h => htext (List.infix_cons h)
      obtain ⟨out, hlength, hout⟩ := ih hrest
      refine ⟨commentByte b :: out, by rw [List.length_cons, List.length_cons, hlength], ?_⟩
      rw [List.cons_append, stripBytes_blockComment, hout]
      · rfl
      · intro hclose
        apply htext
        cases text with
        | nil =>
            have hhead : some (ascii '*') = some (ascii '/') := hclose.2
            exact absurd hhead (by decide)
        | cons c text =>
            have hhead : some c = some (ascii '/') := hclose.2
            rw [hclose.1, Option.some.inj hhead]
            exact ⟨[], text, rfl⟩

/-- What follows a place outside strings and comments is stripped on its own. -/
theorem stripBytes_outside {front rest : List UInt8} (h : Outside front rest) :
    ∃ out, out.length = front.length ∧
      stripBytes .plain (front ++ rest) = out ++ stripBytes .plain rest := by
  induction h with
  | start rest => exact ⟨[], rfl, rfl⟩
  | @byte front rest b hquote hslash _ ih =>
      obtain ⟨out, hlength, hout⟩ := ih
      have hstep : ∃ b', stripBytes .plain (b :: rest) = b' :: stripBytes .plain rest := by
        rw [stripBytes_plain hslash]
        split
        · exact ⟨ascii ' ', rfl⟩
        · exact ⟨b, by rw [plainState, if_neg hquote]⟩
      obtain ⟨b', hb'⟩ := hstep
      refine ⟨out ++ [b'], by simp [hlength], ?_⟩
      rw [List.append_assoc, List.singleton_append, hout, hb', List.append_assoc]
      rfl
  | @lineComment front text rest htext hrest _ ih =>
      obtain ⟨out, hlength, hout⟩ := ih
      refine ⟨out ++ ascii ' ' :: ascii ' ' :: List.replicate text.length (ascii ' '),
        by simp [hlength], ?_⟩
      rw [List.append_assoc, List.cons_append, List.cons_append, hout, stripBytes_openLine,
        stripBytes_line htext hrest]
      simp only [List.append_assoc, List.cons_append]
  | @blockComment front text rest htext _ ih =>
      obtain ⟨out, hlength, hout⟩ := ih
      obtain ⟨inner, hinner, hblock⟩ := @stripBytes_block text rest htext
      refine ⟨out ++ ascii ' ' :: ascii ' ' :: (inner ++ [ascii ' ', ascii ' ']),
        by simp [hlength, hinner], ?_⟩
      have hlist : front ++ ascii '/' :: ascii '*' :: (text ++ [ascii '*', ascii '/']) ++ rest =
          front ++ ascii '/' :: ascii '*' :: (text ++ ascii '*' :: ascii '/' :: rest) := by
        simp only [List.append_assoc, List.cons_append, List.nil_append]
      rw [hlist, hout, stripBytes_openBlock, hblock]
      simp only [List.append_assoc, List.cons_append, List.nil_append]
  | @literal front body rest hbody _ ih =>
      obtain ⟨out, hlength, hout⟩ := ih
      refine ⟨out ++ ascii '"' :: (body ++ [ascii '"']), by simp [hlength], ?_⟩
      have hlist : front ++ ascii '"' :: (body ++ [ascii '"']) ++ rest =
          front ++ ascii '"' :: (body ++ ascii '"' :: rest) := by
        simp only [List.append_assoc, List.cons_append, List.nil_append]
      rw [hlist, hout, stripBytes_closed hbody]
      simp only [List.append_assoc, List.cons_append, List.nil_append]

theorem stripBytes_literal {lit rest : List UInt8} (h : IsLiteral lit rest) :
    ∃ out, stripBytes .plain (lit ++ rest) = lit ++ out := by
  cases h with
  | @closed body rest hbody =>
      refine ⟨stripBytes .plain rest, ?_⟩
      rw [List.cons_append, List.append_assoc, List.singleton_append, stripBytes_closed hbody]
      simp only [List.append_assoc, List.cons_append, List.nil_append]
  | @unclosed body hbody =>
      refine ⟨[], ?_⟩
      rw [List.cons_append, stripBytes_quote, stripBytes_body hbody, stripBytes_nil]
  | @broken body hbody =>
      refine ⟨[], ?_⟩
      rw [List.cons_append, stripBytes_quote, List.append_assoc, stripBytes_body hbody]
      simp only [List.append_nil, stripBytes_string, stripBytes_nil]

theorem literal_kept {front lit rest : List UInt8} (houtside : Outside front (lit ++ rest))
    (hliteral : IsLiteral lit rest) {i : Nat} (hi : i < lit.length) :
    (stripBytes .plain (front ++ (lit ++ rest)))[front.length + i]? =
      (front ++ (lit ++ rest))[front.length + i]? := by
  obtain ⟨out, hlength, hout⟩ := stripBytes_outside houtside
  obtain ⟨after, hafter⟩ := stripBytes_literal hliteral
  have hplace : ∀ before after : List UInt8, before.length = front.length →
      (before ++ (lit ++ after))[front.length + i]? = lit[i]? := by
    intro before after hbefore
    rw [List.getElem?_append_right (by omega), hbefore, Nat.add_sub_cancel_left,
      List.getElem?_append_left hi]
  rw [hout, hafter, hplace out after hlength, hplace front rest rfl]

end Literals

section Encoding

/-- The bytes of a text, character by character. -/
def encode (cs : List Char) : List UInt8 := cs.flatMap String.utf8EncodeChar

theorem encode_cons (c : Char) (cs : List Char) :
    encode (c :: cs) = String.utf8EncodeChar c ++ encode cs := rfl

theorem encode_append (cs ds : List Char) : encode (cs ++ ds) = encode cs ++ encode ds :=
  List.flatMap_append

theorem encode_ascii {c : Char} (h : c.toNat < 128) (cs : List Char) :
    encode (c :: cs) = ascii c :: encode cs := by
  rw [encode_cons, Text.utf8EncodeChar_ascii h]
  rfl

theorem toNat_ascii {c : Char} (h : c.toNat < 128) : (ascii c).toNat = c.toNat := by
  rw [ascii, UInt8.toNat_ofNat']
  omega

theorem ascii_inj {c d : Char} (hc : c.toNat < 128) (hd : d.toNat < 128) :
    ascii c = ascii d ↔ c = d := by
  constructor
  · intro h
    have hnat := congrArg UInt8.toNat h
    rw [toNat_ascii hc, toNat_ascii hd] at hnat
    exact Char.toNat_inj.mp hnat
  · intro h
    rw [h]

/-- No byte of the list is an ASCII character. -/
def IsWide (bs : List UInt8) : Prop := ∀ b ∈ bs, 128 ≤ b.toNat

theorem ne_ascii_of_wide {b : UInt8} {c : Char} (hb : 128 ≤ b.toNat) (hc : c.toNat < 128) :
    b ≠ ascii c := by
  intro h
  rw [h, toNat_ascii hc] at hb
  omega

theorem head_encode {c d : Char} {cs : List Char} (hd : d.toNat < 128) :
    (encode (c :: cs)).head? = some (ascii d) ↔ c = d := by
  by_cases hc : c.toNat < 128
  · rw [encode_ascii hc, List.head?_cons, Option.some.injEq, ascii_inj hc hd]
  · obtain ⟨hlength, hwide⟩ := Text.utf8EncodeChar_wide (Nat.le_of_not_lt hc)
    constructor
    · intro h
      rw [encode_cons] at h
      cases hbytes : String.utf8EncodeChar c with
      | nil =>
          rw [hbytes] at hlength
          exact absurd hlength (by decide)
      | cons b bs =>
          rw [hbytes, List.cons_append, List.head?_cons, Option.some.injEq] at h
          exact absurd h (ne_ascii_of_wide (hwide b (by rw [hbytes]; exact List.mem_cons_self)) hd)
    · intro h
      rw [h] at hc
      exact absurd hd hc

theorem strip_wide_plain {bs : List UInt8} (h : IsWide bs) (rest : List UInt8) :
    stripBytes .plain (bs ++ rest) = bs ++ stripBytes .plain rest := by
  induction bs with
  | nil => rfl
  | cons b bs ih =>
      have hb : ∀ c : Char, c.toNat < 128 → b ≠ ascii c := fun c hc =>
        ne_ascii_of_wide (h b List.mem_cons_self) hc
      rw [List.cons_append, stripBytes_plain fun heq => absurd heq (hb '/' (by decide)),
        if_neg fun heq => hb ',' (by decide) heq.1, plainState, if_neg (hb '"' (by decide)),
        ih fun c hc => h c (List.mem_cons_of_mem b hc), List.cons_append]

theorem strip_wide_string {bs : List UInt8} (h : IsWide bs) (rest : List UInt8) :
    stripBytes .string (bs ++ rest) = bs ++ stripBytes .string rest := by
  induction bs with
  | nil => rfl
  | cons b bs ih =>
      have hb : ∀ c : Char, c.toNat < 128 → b ≠ ascii c := fun c hc =>
        ne_ascii_of_wide (h b List.mem_cons_self) hc
      rw [List.cons_append, stripBytes_string, stringState, if_neg (hb '\\' (by decide)),
        if_neg (hb '"' (by decide)), ih fun c hc => h c (List.mem_cons_of_mem b hc),
        List.cons_append]

theorem strip_wide_escaped {bs : List UInt8} (h : IsWide bs) (hne : bs ≠ []) (rest : List UInt8) :
    stripBytes .escaped (bs ++ rest) = bs ++ stripBytes .string rest := by
  cases bs with
  | nil => exact absurd rfl hne
  | cons b bs =>
      rw [List.cons_append, stripBytes_escaped,
        strip_wide_string fun c hc => h c (List.mem_cons_of_mem b hc), List.cons_append]

theorem strip_wide_line {bs : List UInt8} (h : IsWide bs) (rest : List UInt8) :
    stripBytes .lineComment (bs ++ rest) =
      List.replicate bs.length (ascii ' ') ++ stripBytes .lineComment rest := by
  induction bs with
  | nil => rfl
  | cons b bs ih =>
      have hb := ne_ascii_of_wide (c := '\n') (h b List.mem_cons_self) (by decide)
      rw [List.cons_append, stripBytes_lineComment, if_neg hb,
        ih fun c hc => h c (List.mem_cons_of_mem b hc)]
      rfl

theorem strip_wide_block {bs : List UInt8} (h : IsWide bs) (rest : List UInt8) :
    stripBytes .blockComment (bs ++ rest) =
      List.replicate bs.length (ascii ' ') ++ stripBytes .blockComment rest := by
  induction bs with
  | nil => rfl
  | cons b bs ih =>
      have hb : ∀ c : Char, c.toNat < 128 → b ≠ ascii c := fun c hc =>
        ne_ascii_of_wide (h b List.mem_cons_self) hc
      rw [List.cons_append, stripBytes_blockComment fun heq => hb '*' (by decide) heq.1,
        commentByte, if_neg (hb '\n' (by decide)),
        ih fun c hc => h c (List.mem_cons_of_mem b hc)]
      rfl

theorem encode_blanked (c : Char) :
    encode (blanked c) = List.replicate (String.utf8EncodeChar c).length (ascii ' ') := by
  rw [String.length_utf8EncodeChar, blanked]
  induction c.utf8Size with
  | zero => rfl
  | succ n ih =>
      rw [List.replicate_succ, List.replicate_succ, encode_ascii (by decide), ih]

theorem isWhitespaceByte_ascii {c : Char} (h : c.toNat < 128) :
    isWhitespaceByte (ascii c) = isAsciiWhitespace c := by
  simp only [isWhitespaceByte, isAsciiWhitespace, ascii_inj h (d := ' ') (by decide),
    ascii_inj h (d := '\t') (by decide), ascii_inj h (d := '\n') (by decide),
    ascii_inj h (d := '\x0c') (by decide), ascii_inj h (d := '\r') (by decide)]

theorem closesNextByte_encode (cs : List Char) : closesNextByte (encode cs) = closesNext cs := by
  induction cs with
  | nil => rfl
  | cons c cs ih =>
      by_cases hc : c.toNat < 128
      · have hblank := isWhitespaceByte_ascii hc
        rw [encode_ascii hc]
        unfold closesNextByte closesNext at ih ⊢
        rw [List.dropWhile_cons, List.dropWhile_cons, hblank]
        cases isAsciiWhitespace c with
        | true => exact ih
        | false =>
            simp only [Bool.false_eq_true, if_false, ascii_inj hc (d := '\x7d') (by decide),
              ascii_inj hc (d := ']') (by decide)]
      · obtain ⟨hlength, hwide⟩ := Text.utf8EncodeChar_wide (Nat.le_of_not_lt hc)
        have hother : ∀ d : Char, d.toNat < 128 → decide (c = d) = false := by
          intro d hd
          rw [decide_eq_false_iff_not]
          intro heq
          rw [heq] at hc
          exact hc hd
        have hright : closesNext (c :: cs) = false := by
          have hblank : isAsciiWhitespace c = false := by
            simp only [isAsciiWhitespace, hother ' ' (by decide), hother '\t' (by decide),
              hother '\n' (by decide), hother '\x0c' (by decide), hother '\r' (by decide),
              Bool.or_self]
          rw [closesNext_cons hblank, hother '\x7d' (by decide), hother ']' (by decide)]
          rfl
        rw [hright, encode_cons]
        cases hbytes : String.utf8EncodeChar c with
        | nil =>
            rw [hbytes] at hlength
            exact absurd hlength (by decide)
        | cons b bs =>
            have hb : ∀ d : Char, d.toNat < 128 → decide (b = ascii d) = false := by
              intro d hd
              rw [decide_eq_false_iff_not]
              exact ne_ascii_of_wide (hwide b (by rw [hbytes]; exact List.mem_cons_self)) hd
            have hblank : isWhitespaceByte b = false := by
              simp only [isWhitespaceByte, hb ' ' (by decide), hb '\t' (by decide),
                hb '\n' (by decide), hb '\x0c' (by decide), hb '\r' (by decide), Bool.or_self]
            unfold closesNextByte
            rw [List.cons_append, List.dropWhile_cons, hblank]
            simp only [Bool.false_eq_true, if_false, hb '\x7d' (by decide), hb ']' (by decide),
              Bool.or_self]

/-! What one character does in each state. -/

variable {c : Char} {cs : List Char}

theorem encode_string (c : Char) (cs : List Char) : stripBytes .string (encode (c :: cs)) =
    String.utf8EncodeChar c ++ stripBytes
      (if c = '\\' then .escaped else if c = '"' then .plain else .string) (encode cs) := by
  by_cases hc : c.toNat < 128
  · rw [encode_ascii hc, Text.utf8EncodeChar_ascii hc, stripBytes_string]
    simp only [stringState, ascii_inj hc (d := '\\') (by decide), ascii_inj hc (d := '"') (by decide)]
    rfl
  · have hwide := (Text.utf8EncodeChar_wide (Nat.le_of_not_lt hc)).2
    have hother : ∀ d : Char, d.toNat < 128 → c ≠ d := fun d hd heq => hc (heq ▸ hd)
    rw [encode_cons, strip_wide_string hwide, if_neg (hother '\\' (by decide)),
      if_neg (hother '"' (by decide))]

theorem encode_escaped (c : Char) (cs : List Char) : stripBytes .escaped (encode (c :: cs)) =
    String.utf8EncodeChar c ++ stripBytes .string (encode cs) := by
  by_cases hc : c.toNat < 128
  · rw [encode_ascii hc, Text.utf8EncodeChar_ascii hc, stripBytes_escaped]
    rfl
  · obtain ⟨hlength, hwide⟩ := Text.utf8EncodeChar_wide (Nat.le_of_not_lt hc)
    have hne : String.utf8EncodeChar c ≠ [] := by
      intro hnil
      rw [hnil] at hlength
      exact absurd hlength (by decide)
    rw [encode_cons, strip_wide_escaped hwide hne]

theorem encode_lineComment (h : c ≠ '\n') : stripBytes .lineComment (encode (c :: cs)) =
    encode (blanked c) ++ stripBytes .lineComment (encode cs) := by
  rw [encode_blanked]
  by_cases hc : c.toNat < 128
  · have hne : ascii c ≠ ascii '\n' := fun heq => h ((ascii_inj hc (by decide)).mp heq)
    rw [encode_ascii hc, Text.utf8EncodeChar_ascii hc, stripBytes_lineComment, if_neg hne]
    rfl
  · have hwide := (Text.utf8EncodeChar_wide (Nat.le_of_not_lt hc)).2
    rw [encode_cons, strip_wide_line hwide]

theorem head_of_encode {d : Char} (hd : d.toNat < 128)
    (h : (encode cs).head? = some (ascii d)) : ∃ rest, cs = d :: rest := by
  cases cs with
  | nil => cases h
  | cons c cs => exact ⟨cs, by rw [(head_encode hd).mp h]⟩

theorem encode_blockComment (h : ∀ rest, c = '*' → cs = '/' :: rest → False) :
    stripBytes .blockComment (encode (c :: cs)) =
      encode (blankedInComment c) ++ stripBytes .blockComment (encode cs) := by
  by_cases hc : c.toNat < 128
  · have hopen : ¬ (ascii c = ascii '*' ∧ (encode cs).head? = some (ascii '/')) := by
      intro hclose
      obtain ⟨rest, hrest⟩ := head_of_encode (by decide) hclose.2
      exact h rest ((ascii_inj hc (by decide)).mp hclose.1) hrest
    rw [encode_ascii hc, stripBytes_blockComment hopen, commentByte, blankedInComment]
    by_cases hline : c = '\n'
    · rw [if_pos hline, hline, if_pos rfl]
      rfl
    · have hne : ascii c ≠ ascii '\n' := fun heq => hline ((ascii_inj hc (by decide)).mp heq)
      rw [if_neg hline, if_neg hne, encode_blanked, Text.utf8EncodeChar_ascii hc]
      rfl
  · have hwide := (Text.utf8EncodeChar_wide (Nat.le_of_not_lt hc)).2
    have hline : c ≠ '\n' := fun heq => hc (heq ▸ by decide)
    rw [encode_cons, strip_wide_block hwide, blankedInComment, if_neg hline, encode_blanked]

theorem encode_plain (hline : ∀ rest, c = '/' → cs = '/' :: rest → False)
    (hblock : ∀ rest, c = '/' → cs = '*' :: rest → False) :
    stripBytes .plain (encode (c :: cs)) =
      if c = ',' ∧ closesNext cs = true then ascii ' ' :: stripBytes .plain (encode cs)
      else String.utf8EncodeChar c ++
        stripBytes (if c = '"' then .string else .plain) (encode cs) := by
  by_cases hc : c.toNat < 128
  · have hslash : ascii c = ascii '/' →
        (encode cs).head? ≠ some (ascii '/') ∧ (encode cs).head? ≠ some (ascii '*') := by
      intro heq
      have hceq := (ascii_inj hc (by decide)).mp heq
      constructor
      · intro hhead
        obtain ⟨rest, hrest⟩ := head_of_encode (by decide) hhead
        exact hline rest hceq hrest
      · intro hhead
        obtain ⟨rest, hrest⟩ := head_of_encode (by decide) hhead
        exact hblock rest hceq hrest
    rw [encode_ascii hc, stripBytes_plain hslash, closesNextByte_encode,
      Text.utf8EncodeChar_ascii hc, plainState]
    simp only [ascii_inj hc (d := ',') (by decide), ascii_inj hc (d := '"') (by decide)]
    rfl
  · have hwide := (Text.utf8EncodeChar_wide (Nat.le_of_not_lt hc)).2
    have hother : ∀ d : Char, d.toNat < 128 → c ≠ d := fun d hd heq => hc (heq ▸ hd)
    rw [encode_cons, strip_wide_plain hwide, if_neg fun heq => hother ',' (by decide) heq.1,
      if_neg (hother '"' (by decide))]

/-- The bytes are stripped as the characters are. -/
theorem strip_encode (st : StripState) (cs : List Char) :
    stripBytes st (encode cs) = encode (stripFrom st cs) := by
  fun_induction stripFrom st cs with
  | case1 st => exact stripBytes_nil st
  | case2 c cs ih => rw [encode_string, ih, encode_cons]
  | case3 c cs ih => rw [encode_escaped, ih, encode_cons]
  | case4 cs ih =>
      rw [encode_ascii (by decide), stripBytes_lineComment, if_pos rfl, ih, encode_ascii (by decide)]
  | case5 c cs h ih => rw [encode_lineComment h, ih, encode_append]
  | case6 cs ih =>
      simp only [encode_ascii (c := '*') (by decide), encode_ascii (c := '/') (by decide),
        encode_ascii (c := ' ') (by decide), stripBytes_closeBlock, ih]
  | case7 c cs h ih => rw [encode_blockComment h, ih, encode_append]
  | case8 cs ih =>
      simp only [encode_ascii (c := '/') (by decide), encode_ascii (c := ' ') (by decide),
        stripBytes_openLine, ih]
  | case9 cs ih =>
      simp only [encode_ascii (c := '/') (by decide), encode_ascii (c := '*') (by decide),
        encode_ascii (c := ' ') (by decide), stripBytes_openBlock, ih]
  | case10 c cs hline hblock h ih =>
      rw [encode_plain hline hblock, if_pos h, ih, encode_ascii (by decide)]
  | case11 c cs hline hblock h ih => rw [encode_plain hline hblock, if_neg h, ih, encode_cons]

theorem utf8_eq_encode (s : String) : Text.utf8 s = encode s.toList := by
  have h := Text.utf8_ofList s.toList
  rwa [String.ofList_toList] at h

theorem stripBytes_utf8 (input : String) :
    stripBytes .plain (Text.utf8 input) = Text.utf8 (stripJsonc input) := by
  rw [utf8_eq_encode, utf8_eq_encode, strip_encode, stripJsonc, String.toList_ofList]

end Encoding

section Kept

/-- Nothing moves in a stripped document. -/
structure KeepsBytes (input output : List UInt8) : Prop where
  length : output.length = input.length
  newlines : ∀ i : Nat, output[i]? = some (ascii '\n') ↔ input[i]? = some (ascii '\n')
  literals : ∀ front lit rest, input = front ++ (lit ++ rest) → Outside front (lit ++ rest) →
    IsLiteral lit rest → ∀ i : Nat, i < lit.length → output[front.length + i]? = input[front.length + i]?

theorem strip_jsonc_keeps_bytes (input : String) :
    stripJsoncBytes input = some (stripJsonc input) ∧
      KeepsBytes (Text.utf8 input) (Text.utf8 (stripJsonc input)) := by
  constructor
  · rw [stripJsoncBytes, stripBytes_utf8, Text.fromUTF8?_utf8]
  · rw [← stripBytes_utf8]
    constructor
    · exact length_stripBytes _ _
    · exact newline_stripBytes _ _
    · intro front lit rest hinput houtside hliteral i hi
      rw [hinput]
      exact literal_kept houtside hliteral hi

example : stripJsonc "[1, // é\n \"a//b\", /* \n */ ]" =
    "[1,      \n \"a//b\",    \n    ]" := by decide +kernel

end Kept

end Snpm.Compat.Bun
