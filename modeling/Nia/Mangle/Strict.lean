import Nia.Mangle.Spelling

/-! Which spellings of a symbol are the encoder's.

A form is written by the encoder when its numbers are as short as they can be, no argument is written out
that was read before, and the arguments up to the one that a back reference names are all different, which
is where the tables of the two sides agree. `demangle_strict_iff`: a symbol that is decoded is what the
encoder writes of its key exactly when its form is such a one. -/
namespace Nia.Mangle
open Nia.Lib.Code Nia.Lib.BackReference List

/-! ### Bytes of forms -/

def TextForm.bytes (form : TextForm) : Bytes := form.length ++ asBytes form.text

def ArgForm.bytes : ArgForm → Bytes
  | .written text => 1 :: text.bytes
  | .reference index => 0 :: index

def argBytes (forms : List ArgForm) : Bytes := forms.flatMap ArgForm.bytes

theorem argBytes_cons (form : ArgForm) (forms : List ArgForm) :
    argBytes (form :: forms) = form.bytes ++ argBytes forms := flatMap_cons

def HeaderForm.bytes (form : HeaderForm) : Bytes :=
  form.module ++ (form.definition.bytes ++ ([form.kind.tag] ++
    (form.package.bytes ++ (form.name.bytes ++ form.count))))

def SymbolForm.bytes (form : SymbolForm) : Bytes := form.header.bytes ++ argBytes form.args

/-- The length is that of the text. -/
structure TextForm.Valid (form : TextForm) : Prop where
  length : NumberForm form.length
  value : numberValue form.length = UInt64.ofNat (asBytes form.text).length
  fits : (asBytes form.text).length < 2 ^ 64

/-- Every back reference leads to an argument in front of it. -/
def ArgsValid (read : List String) : List ArgForm → Prop
  | [] => True
  | .written text :: forms => text.Valid ∧ ArgsValid (read ++ [text.text]) forms
  | .reference index :: forms => NumberForm index ∧ ∃ arg, read[(numberValue index).toNat]? = some arg ∧
      ArgsValid (read ++ [arg]) forms

structure HeaderForm.Valid (form : HeaderForm) : Prop where
  module : NumberForm form.module
  definition : form.definition.Valid
  package : form.package.Valid
  packageId : form.packageId.val = form.package.text
  name : form.name.Valid
  count : NumberForm form.count

theorem asBytes_of_fromUtf8 {bytes : Bytes} {text : String} (h : fromUtf8 bytes = some text) :
    asBytes text = bytes := by
  rw [fromUtf8, String.fromUTF8?] at h
  split at h
  · cases h
    rfl
  · cases h

theorem kind_of_tag {tag : UInt8} {kind : MangleSymbolKind} (h : MangleSymbolKind.fromTag tag = some kind) :
    kind.tag = tag := by
  rw [MangleSymbolKind.fromTag] at h
  split_ifs at h <;> cases h <;> exact Eq.symm ‹_›

variable {α β : Type} {get : Reader UInt8 α} {next : α → Reader UInt8 β} {stream : Bytes}
  {result : β × Bytes}

/-- Two readers one after the other. -/
theorem bind_eq_some (h : (get >>= next) stream = some result) :
    ∃ a rest, get stream = some (a, rest) ∧ next a rest = some result := by
  obtain ⟨⟨a, rest⟩, hget, hnext⟩ := Option.bind_eq_some_iff.mp h
  exact ⟨a, rest, hget, hnext⟩

/-- A check between two readers. -/
theorem lift_bind_eq_some {found : Option α} (h : (StateT.lift found >>= next) stream = some result) :
    ∃ a, found = some a ∧ next a stream = some result := by
  cases found with
  | none => cases h
  | some a => exact ⟨a, rfl, h⟩

variable {rest : Bytes}

theorem getByte_eq_some {byte : UInt8} (h : getByte stream = some (byte, rest)) : stream = byte :: rest := by
  cases stream with
  | nil => cases h
  | cons first stream =>
    cases h
    rfl

theorem takeText_eq_some {form : TextForm} (h : takeText stream = some (form, rest)) :
    stream = form.bytes ++ rest ∧ form.Valid := by
  obtain ⟨length, behind, hlength, h⟩ := bind_eq_some h
  obtain ⟨bytes, behind', hbytes, h⟩ := bind_eq_some h
  obtain ⟨text, htext, h⟩ := lift_bind_eq_some h
  cases h
  obtain ⟨rfl, hnumber⟩ := takeNumber_eq_some hlength
  rw [getSlice] at hbytes
  split at hbytes
  · rename_i hle
    cases hbytes
    have hasBytes := asBytes_of_fromUtf8 htext
    have hsize : (asBytes text).length = (numberValue length).toNat := by
      rw [hasBytes, length_take, Nat.min_eq_left hle]
    refine ⟨?_, hnumber, ?_, ?_⟩
    · rw [TextForm.bytes, hasBytes, append_assoc, take_append_drop]
    · rw [hsize, UInt64.ofNat_toNat]
    · rw [hsize]
      exact (numberValue length).toNat_lt
  · cases hbytes

variable {read : List String} {forms : List ArgForm}

theorem takeArgs_eq_some {count : Nat} (h : takeArgs count read stream = some (forms, rest)) :
    stream = argBytes forms ++ rest ∧ ArgsValid read forms ∧ forms.length = count := by
  induction count generalizing read stream forms with
  | zero =>
    cases h
    exact ⟨rfl, trivial, rfl⟩
  | succ count ih =>
    rw [takeArgs] at h
    obtain ⟨tag, behind, htag, hnext⟩ := bind_eq_some h
    clear h
    obtain rfl := getByte_eq_some htag
    split_ifs at hnext with hreference hwritten
    · obtain ⟨index, behind', hindex, h⟩ := bind_eq_some hnext
      obtain ⟨arg, harg, h⟩ := lift_bind_eq_some h
      obtain ⟨args, behind'', hargs, h⟩ := bind_eq_some h
      cases h
      obtain ⟨rfl, hnumber⟩ := takeNumber_eq_some hindex
      obtain ⟨rfl, hvalid, hlength⟩ := ih hargs
      refine ⟨?_, ⟨hnumber, arg, harg, hvalid⟩, congrArg (· + 1) hlength⟩
      rw [argBytes_cons, ArgForm.bytes, hreference, append_assoc]
      rfl
    · obtain ⟨text, behind', htext, h⟩ := bind_eq_some hnext
      obtain ⟨args, behind'', hargs, h⟩ := bind_eq_some h
      cases h
      obtain ⟨rfl, hvalidText⟩ := takeText_eq_some htext
      obtain ⟨rfl, hvalid, hlength⟩ := ih hargs
      refine ⟨?_, ⟨hvalidText, hvalid⟩, congrArg (· + 1) hlength⟩
      rw [argBytes_cons, ArgForm.bytes, hwritten, append_assoc]
      rfl
    · cases hnext

theorem tryNew_eq_some {text : String} {package : SymbolPackageIdentity}
    (h : SymbolPackageIdentity.tryNew text = some package) : package.val = text := by
  rw [SymbolPackageIdentity.tryNew] at h
  split at h
  · cases h
    rfl
  · cases h

theorem takeHeader_eq_some {form : HeaderForm} (h : takeHeader stream = some (form, rest)) :
    stream = form.bytes ++ rest ∧ form.Valid := by
  rw [takeHeader] at h
  obtain ⟨module, _, hmodule, h⟩ := bind_eq_some h
  obtain ⟨definition, _, hdefinition, h⟩ := bind_eq_some h
  obtain ⟨tag, _, htag, h⟩ := bind_eq_some h
  obtain ⟨kind, hkind, h⟩ := lift_bind_eq_some h
  obtain ⟨package, _, hpackage, h⟩ := bind_eq_some h
  obtain ⟨packageId, hpackageId, h⟩ := lift_bind_eq_some h
  obtain ⟨name, _, hname, h⟩ := bind_eq_some h
  obtain ⟨count, _, hcount, h⟩ := bind_eq_some h
  obtain ⟨htakenModule, hmodule⟩ := takeNumber_eq_some hmodule
  obtain ⟨htakenDefinition, hdefinition⟩ := takeText_eq_some hdefinition
  have htakenTag := getByte_eq_some htag
  obtain ⟨htakenPackage, hpackage⟩ := takeText_eq_some hpackage
  obtain ⟨htakenName, hname⟩ := takeText_eq_some hname
  obtain ⟨htakenCount, hcountForm⟩ := takeNumber_eq_some hcount
  cases h
  refine ⟨?_, hmodule, hdefinition, hpackage, tryNew_eq_some hpackageId, hname, hcountForm⟩
  rw [htakenModule, htakenDefinition, htakenTag, htakenPackage, htakenName, htakenCount, HeaderForm.bytes,
    kind_of_tag hkind]
  simp only [append_assoc, cons_append, nil_append]

theorem takeRecord_eq_some {form : SymbolForm} (h : takeRecord stream = some (form, rest)) :
    stream = form.bytes ++ rest ∧ form.header.Valid ∧ ArgsValid [] form.args ∧
      form.args.length = (numberValue form.header.count).toNat := by
  rw [takeRecord] at h
  obtain ⟨header, _, hheader, h⟩ := bind_eq_some h
  obtain ⟨args, _, hargs, h⟩ := bind_eq_some h
  obtain ⟨htakenHeader, hvalid⟩ := takeHeader_eq_some hheader
  obtain ⟨htakenArgs, hargsForm, hlength⟩ := takeArgs_eq_some hargs
  cases h
  exact ⟨by rw [htakenHeader, htakenArgs, SymbolForm.bytes, append_assoc], hvalid, hargsForm, hlength⟩

/-! ### What the encoder writes -/

/-- Words at the front of a stream are compared one by one. -/
theorem append_eq_iff {u v x y : Bytes} {a b : α} (hu : Reads get u a)
    (hv : Reads get v b) : u ++ x = v ++ y ↔ u = v ∧ x = y := by
  constructor
  · intro h
    obtain ⟨-, rfl⟩ := hu.unique hv h
    exact ⟨append_cancel_right h, rfl⟩
  · rintro ⟨rfl, rfl⟩
    rfl

theorem TextForm.Valid.reads {form : TextForm} (h : form.Valid) : Reads getText form.bytes form.text := by
  have hbytes : Reads getBytes form.bytes (asBytes form.text) := by
    refine h.length.reads.bind ?_
    rw [h.value, UInt64.toNat_ofNat_of_lt' h.fits]
    exact getSlice_put _
  exact hbytes.bind_lift (fromUtf8_asBytes form.text)

theorem TextForm.Valid.putText_eq_iff {form : TextForm} (h : form.Valid) :
    putText form.text = form.bytes ↔ Minimal form.length := by
  rw [putText, putBytes, TextForm.bytes, append_cancel_right_eq, ← h.value, h.length.putVarint_eq_iff]

theorem TextForm.Valid.reads_put {form : TextForm} (h : form.Valid) : Reads getText (putText form.text) form.text :=
  getText_put h.fits

structure HeaderForm.Canonical (form : HeaderForm) : Prop where
  module : Minimal form.module
  definition : Minimal form.definition.length
  package : Minimal form.package.length
  name : Minimal form.name.length
  count : Minimal form.count

theorem HeaderForm.Valid.put_eq_iff {form : HeaderForm} (h : form.Valid) (x y : Bytes) :
    putHeader form.value ++ x = form.bytes ++ y ↔ form.Canonical ∧ x = y := by
  rw [putHeader, HeaderForm.bytes, HeaderForm.value]
  dsimp only
  rw [h.packageId]
  simp only [append_assoc]
  rw [append_eq_iff (getVarint_put _) h.module.reads, append_eq_iff h.definition.reads_put h.definition.reads,
    append_eq_iff (getByte_put _) (getByte_put _), append_eq_iff h.package.reads_put h.package.reads,
    append_eq_iff h.name.reads_put h.name.reads, append_eq_iff (getVarint_put _) h.count.reads,
    h.module.putVarint_eq_iff, h.definition.putText_eq_iff, h.package.putText_eq_iff, h.name.putText_eq_iff,
    h.count.putVarint_eq_iff]
  constructor
  · rintro ⟨hmodule, hdefinition, -, hpackage, hname, hcount, rfl⟩
    exact ⟨⟨hmodule, hdefinition, hpackage, hname, hcount⟩, rfl⟩
  · rintro ⟨⟨hmodule, hdefinition, hpackage, hname, hcount⟩, rfl⟩
    exact ⟨hmodule, hdefinition, rfl, hpackage, hname, hcount, rfl⟩

/-- No argument is written out that was read before, and the arguments up to the one that a back reference names
are all different. -/
def ArgsCanonical (read : List String) : List ArgForm → Prop
  | [] => True
  | .written text :: forms => Minimal text.length ∧ text.text ∉ read ∧ ArgsCanonical (read ++ [text.text]) forms
  | .reference index :: forms =>
    Minimal index ∧ (read.take ((numberValue index).toNat + 1)).Nodup ∧
      ArgsCanonical (read ++ [read.getD (numberValue index).toNat ""]) forms

theorem putVarint_ofNat_eq_iff {index : Bytes} (h : NumberForm index) {tabled : Nat} (htabled : tabled < 2 ^ 64) :
    putVarint (UInt64.ofNat tabled) = index ↔ Minimal index ∧ tabled = (numberValue index).toNat := by
  constructor
  · rintro rfl
    have hread := (getVarint_put (UInt64.ofNat tabled)).unique h.reads
      (show putVarint (UInt64.ofNat tabled) ++ [] = putVarint (UInt64.ofNat tabled) ++ [] from rfl)
    refine ⟨minimal_putVarint _, ?_⟩
    rw [← hread.1, UInt64.toNat_ofNat_of_lt' htabled]
  · rintro ⟨hminimal, rfl⟩
    rw [UInt64.ofNat_toNat, h.putVarint_eq_iff]
    exact hminimal

theorem idxOf?_of_mem {arg : String} (h : arg ∈ read) :
    ∃ tabled, read.eraseDups.idxOf? arg = some tabled ∧ tabled < read.length := by
  cases htabled : read.eraseDups.idxOf? arg with
  | none => exact absurd (mem_eraseDups.mpr h) (List.idxOf?_eq_none_iff.mp htabled)
  | some tabled =>
    have hlt := (List.getElem?_eq_some_iff.mp (getElem?_of_idxOf? htabled)).1
    exact ⟨tabled, rfl, Nat.lt_of_lt_of_le hlt (eraseDups_sublist read).length_le⟩

/-- The encoder's table is that of the arguments without repetitions, the decoder's has them all. -/
theorem putArgs_eq_iff (h : ArgsValid read forms) (hcount : read.length + forms.length < 2 ^ 64) :
    putArgs read.eraseDups (argValues read forms) = argBytes forms ↔ ArgsCanonical read forms := by
  induction forms generalizing read with
  | nil => exact iff_of_true rfl trivial
  | cons form forms ih =>
    have hnext : ∀ arg : String, (read ++ [arg]).length + forms.length < 2 ^ 64 := by
      intro arg
      rw [length_append, length_singleton]
      rw [length_cons] at hcount
      omega
    rw [argBytes_cons]
    cases form with
    | written text =>
      obtain ⟨htext, hforms⟩ := h
      rw [argValues, ArgsCanonical, ArgForm.bytes, putArgs]
      by_cases hmem : text.text ∈ read
      · obtain ⟨tabled, htabled, -⟩ := idxOf?_of_mem hmem
        rw [htabled]
        exact iff_of_false (fun heq => absurd (List.cons.inj heq).1 (by decide)) fun hcanonical => hcanonical.2.1 hmem
      · have hnone : read.eraseDups.idxOf? text.text = none := by
          rw [List.idxOf?_eq_none_iff, mem_eraseDups]
          exact hmem
        rw [hnone]
        dsimp only
        rw [cons_append, cons_append, List.cons.injEq, append_eq_iff htext.reads_put htext.reads,
          htext.putText_eq_iff, ← eraseDups_append_not_mem hmem, ih hforms (hnext _)]
        simp only [hmem, not_false_iff, true_and]
    | reference index =>
      obtain ⟨hindex, arg, hfound, hforms⟩ := h
      have harg : read.getD (numberValue index).toNat "" = arg := by
        rw [getD_eq_getElem?_getD, hfound, Option.getD_some]
      have hmem : arg ∈ read := mem_of_getElem? hfound
      obtain ⟨tabled, htabled, hlt⟩ := idxOf?_of_mem hmem
      rw [argValues, ArgsCanonical, ArgForm.bytes, harg, putArgs, htabled]
      dsimp only
      rw [cons_append, cons_append, List.cons.injEq, append_eq_iff (getVarint_put _) hindex.reads,
        putVarint_ofNat_eq_iff hindex (by omega), idxOf?_eraseDups_eq_iff hfound htabled,
        ← eraseDups_append_mem hmem, ih hforms (hnext _), and_assoc]
      simp only [true_and]

/-! ### Symbols -/

/-- A form that the encoder writes. -/
structure SymbolForm.Canonical (form : SymbolForm) : Prop where
  header : form.header.Canonical
  args : ArgsCanonical [] form.args

/-- The key of a decoded symbol. -/
def DecodedStableSymbol.key (decoded : DecodedStableSymbol) : StableSymbolKey :=
  ⟨decoded.package, decoded.module, decoded.definition, decoded.name, decoded.kind, decoded.genericArgs⟩

theorem length_argValues (read : List String) (forms : List ArgForm) :
    (argValues read forms).length = forms.length := by
  induction forms generalizing read with
  | nil => rfl
  | cons form forms ih =>
    cases form with
    | written text | reference index => exact congrArg (· + 1) (ih _)

/-- A symbol with a record is the text of its bytes. -/
theorem eq_of_symbolRecord {symbol : String} {record : Bytes} (h : symbolRecord symbol = some record) :
    symbol = String.ofList ('_' :: 'N' :: encodeBase64url (78 :: 73 :: 65 :: 1 :: record)) := by
  rw [symbolRecord] at h
  split at h
  · rename_i payload hpayload
    split at h
    · rename_i found hfound
      cases h
      obtain ⟨output, -, hcheck⟩ := Option.bind_eq_some_iff.mp hfound
      split at hcheck
      · rename_i hencoded
        cases hcheck
        rw [hencoded, ← hpayload, String.ofList_toList]
      · cases hcheck
    · cases h
  · cases h

theorem symbolForm_eq_some {symbol : String} {form : SymbolForm} (h : symbolForm symbol = some form) :
    symbol = String.ofList ('_' :: 'N' :: encodeBase64url (78 :: 73 :: 65 :: 1 :: form.bytes)) ∧ form.header.Valid ∧
      ArgsValid [] form.args ∧ form.args.length = (numberValue form.header.count).toNat := by
  obtain ⟨record, hrecord, hread⟩ := Option.bind_eq_some_iff.mp h
  obtain ⟨⟨found, rest⟩, htaken, hrest⟩ := Option.bind_eq_some_iff.mp hread
  split at hrest
  · rename_i hnothing
    cases hrest
    obtain ⟨hstream, hvalid⟩ := takeRecord_eq_some htaken
    rw [show rest = [] from hnothing, append_nil] at hstream
    exact ⟨hstream ▸ eq_of_symbolRecord hrecord, hvalid⟩
  · cases hrest

theorem encodeBase64url_inj {bytes bytes' : Bytes} :
    encodeBase64url bytes = encodeBase64url bytes' ↔ bytes = bytes' := by
  refine ⟨fun h => ?_, fun h => h ▸ rfl⟩
  have hdecoded := congrArg decodeBase64url h
  rw [decodeBase64url_encode, decodeBase64url_encode] at hdecoded
  exact Option.some.inj hdecoded

/-- What the encoder writes of the value of a form is the symbol exactly when the form is canonical. -/
theorem mangle_eq_iff {symbol : String} {form : SymbolForm} (h : symbolForm symbol = some form) :
    mangleStableSymbol form.value.key = symbol ↔ form.Canonical := by
  obtain ⟨hsymbol, hheader, hargs, hlength⟩ := symbolForm_eq_some h
  have hvalue : form.value.key.header = form.header.value := by
    have hcount : UInt64.ofNat (argValues [] form.args).length = numberValue form.header.count := by
      rw [length_argValues, hlength, UInt64.ofNat_toNat]
    rw [StableSymbolKey.header, HeaderForm.value, ← hcount]
    rfl
  have hfits : ([] : List String).length + form.args.length < 2 ^ 64 := by
    have := (numberValue form.header.count).toNat_lt
    rw [length_nil, hlength]
    omega
  have hput := putArgs_eq_iff hargs hfits
  rw [eraseDups_nil] at hput
  have hbytes : putHeader form.value.key.header ++ putArgs [] form.value.key.genericArgs = form.bytes ↔
      form.Canonical := by
    rw [hvalue, SymbolForm.bytes, hheader.put_eq_iff]
    refine ⟨fun hcanonical => ⟨hcanonical.1, hput.mp hcanonical.2⟩, fun hcanonical => ?_⟩
    exact ⟨hcanonical.header, hput.mpr hcanonical.args⟩
  rw [← hbytes, mangleStableSymbol]
  conv_lhs => rw [hsymbol]
  rw [String.ofList_inj, List.cons.injEq, List.cons.injEq, encodeBase64url_inj]
  simp only [List.cons.injEq, true_and]

/-- What strictness of a symbol is. -/
def Strict (symbol : String) : Prop :=
  ∀ decoded, demangleStableSymbol symbol = some decoded → mangleStableSymbol decoded.key = symbol

/-- **A symbol is decoded strictly exactly when its form is canonical, and canonical symbols of one key are
equal.** -/
theorem demangle_strict_iff (symbol : String) :
    (Strict symbol ↔ ∀ form, symbolForm symbol = some form → form.Canonical) ∧
      ∀ symbol' form form' decoded, symbolForm symbol = some form → form.Canonical →
        symbolForm symbol' = some form' → form'.Canonical → demangleStableSymbol symbol = some decoded →
          demangleStableSymbol symbol' = some decoded → symbol = symbol' := by
  have hstrict : ∀ symbol, Strict symbol ↔ ∀ form, symbolForm symbol = some form → form.Canonical := by
    intro symbol
    constructor
    · intro h form hform
      refine (mangle_eq_iff hform).mp (h form.value ?_)
      rw [demangle_eq, hform, Option.map_some]
    · intro h decoded hdecoded
      rw [demangle_eq] at hdecoded
      obtain ⟨form, hform, rfl⟩ := Option.map_eq_some_iff.mp hdecoded
      exact (mangle_eq_iff hform).mpr (h form hform)
  refine ⟨hstrict symbol, ?_⟩
  intro symbol' form form' decoded hform hcanonical hform' hcanonical' hdecoded hdecoded'
  have hfirst : Strict symbol := (hstrict symbol).mpr fun found hfound => by
    rw [hform] at hfound
    exact Option.some.inj hfound ▸ hcanonical
  have hsecond : Strict symbol' := (hstrict symbol').mpr fun found hfound => by
    rw [hform'] at hfound
    exact Option.some.inj hfound ▸ hcanonical'
  rw [← hfirst decoded hdecoded, ← hsecond decoded hdecoded']

/-- A symbol of the function `f` whose module is the number of these bytes, with the same argument twice. -/
def spelled (module : Bytes) (second : Bytes) : String :=
  String.ofList ('_' :: 'N' :: encodeBase64url (78 :: 73 :: 65 :: 1 :: (module ++
    [1, 100, 102, 1, 112, 1, 102, 2, 1, 1, 65] ++ second)))

/-- A module number with a byte too many, and an argument written out again, are accepted as what they stand for. -/
theorem spellings_accepted :
    demangleStableSymbol (spelled [129, 0] [0, 0]) = demangleStableSymbol (spelled [1] [0, 0]) ∧
    demangleStableSymbol (spelled [1] [1, 1, 65]) = demangleStableSymbol (spelled [1] [0, 0]) ∧
    (demangleStableSymbol (spelled [1] [0, 0])).map (mangleStableSymbol ·.key) = some (spelled [1] [0, 0]) ∧
    spelled [129, 0] [0, 0] ≠ spelled [1] [0, 0] ∧ spelled [1] [1, 1, 65] ≠ spelled [1] [0, 0] := by
  decide +kernel

end Nia.Mangle
