import CosignedLedger.Proofs.Codec

/-!
# The layout of what travels

Formats are put together from parts, each with a way to write and one to read. Here the written
form of blocks, chains and messages is spelled out as plain strings of bytes: numbers have a fixed
width and begin with the least significant byte, lengths take eight bytes, a byte tells whether an
optional value is there, and four bytes which message it is.

* `Block.layout`, `Chain.layout`, `Message.layout`: the written forms.
* `Format.Spells`: the format writes a layout, and reads what begins with it and nothing else.
* `Format.Exact.spells`: so does every exact format.
* `formats_spell_layouts`: the three formats, and decoding with validation on top of them.
-/

namespace CosignedLedger

/-- A byte string after its length. -/
def Bytes.layout (b : Bytes) : Bytes := ofNatLE 8 b.length ++ b

def Bytes.optionalLayout : Option Bytes → Bytes
  | none => [0]
  | some b => 1 :: b.layout

def Member.layout (m : Member) : Bytes :=
  (Bytes.ofText m.address.name).layout ++ m.publicKey.layout

def Roster.layout (r : Roster) : Bytes :=
  Bytes.ofNatLE 8 r.members.length ++ r.members.flatMap Member.layout

def Header.layout (h : Header) : Bytes :=
  Bytes.ofNatLE 8 h.index.toNat ++ h.previousHash.bytes ++ h.payloadHash.bytes ++ h.authority.layout

def Block.layout (b : Block) : Bytes :=
  b.header.layout ++ b.hash.bytes ++ b.payload.layout ++ Bytes.optionalLayout b.signature

def Link.layout (l : Link) : Bytes :=
  l.source.bytes ++ l.target.bytes ++ l.header.layout ++ l.authority.layout ++ l.signature.layout

def Chain.layout (c : Chain) : Bytes :=
  Bytes.ofNatLE 8 c.links.length ++ c.links.flatMap Link.layout

def Message.layout : Message → Bytes
  | propagateGenesis genesis => Bytes.ofNatLE 4 0 ++ genesis.layout
  | blockRequest target => Bytes.ofNatLE 4 1 ++ target.bytes
  | blockResponse block chain => Bytes.ofNatLE 4 2 ++ block.layout ++ Bytes.optionalLayout chain

theorem Format.write_blob (b : Bytes) : Format.blob.write b = b.layout := rfl

theorem Format.write_option_blob (b : Option Bytes) :
    Format.blob.option.write b = Bytes.optionalLayout b := by
  cases b <;> rfl

theorem Member.format_write : Member.format.write = Member.layout := rfl

theorem Roster.format_write : Roster.format.write = Roster.layout := rfl

theorem Header.format_write (h : Header) : Header.format.write h = h.layout := by
  simp only [Header.format, Format.along, Format.pair, Format.word, Format.digest,
    Roster.format_write, Header.layout, List.append_assoc]

theorem Block.format_write (b : Block) : Block.format.write b = b.layout := by
  simp only [Block.format, Format.along, Format.pair, Format.digest, Format.write_blob,
    Format.write_option_blob, Header.format_write, Block.layout, List.append_assoc]

theorem Link.format_write (l : Link) : Link.format.write l = l.layout := by
  simp only [Link.format, Format.along, Format.pair, Format.digest, Format.write_blob,
    Header.format_write, Roster.format_write, Link.layout, List.append_assoc]

theorem Chain.format_write (c : Chain) : Chain.format.write c = c.layout := by
  have hlinks : Link.format.write = Link.layout := funext Link.format_write
  simp only [Chain.format, Format.along, Format.list, Chain.layout, hlinks]

theorem Message.format_write (m : Message) : Message.format.write m = m.layout := by
  cases m <;>
    simp only [Message.format, Message.tag, Message.writeContents, Format.pair, Format.digest,
      Format.write_blob, Format.write_option_blob, Message.layout, List.append_assoc]

namespace Format
variable {α : Type} {f : Format α} {layout : α → Bytes}

/-- The format writes values in a layout, and decodes a value precisely from the byte strings that
begin with it: what is written is read back, no value is written like the beginning of another, and
what is cut short is refused. Lengths are told in eight bytes, so all this is about byte strings
whose length they can tell. -/
structure Spells (f : Format α) (layout : α → Bytes) : Prop where
  write : ∀ a : α, f.write a = layout a
  decode : ∀ {bytes : Bytes} {a : α}, bytes.length < Bytes.capacity 8 →
    (f.decode bytes = .ok a ↔ layout a <+: bytes)
  decode_layout : ∀ {a : α}, (layout a).length < Bytes.capacity 8 → f.decode (layout a) = .ok a
  eq_of_prefix : ∀ {a b : α}, (layout b).length < Bytes.capacity 8 → layout a <+: layout b → a = b
  cut : ∀ {a : α} {bytes : Bytes}, (layout a).length < Bytes.capacity 8 → bytes <+: layout a →
    bytes ≠ layout a → ∃ fault, f.decode bytes = .error fault

theorem Exact.spells (hf : f.Exact) (hwrite : ∀ a, f.write a = layout a) : f.Spells layout := by
  obtain rfl : f.write = layout := funext hwrite
  have hprefix : ∀ {a b : α}, (f.write b).length < Bytes.capacity 8 → f.write a <+: f.write b →
      a = b := by
    intro a b hlen hab
    have ha := (hf.decode_eq_ok_iff hlen).2 hab
    rw [hf.decode_write hlen] at ha
    cases ha
    rfl
  refine ⟨fun _ => rfl, hf.decode_eq_ok_iff, hf.decode_write, hprefix, ?_⟩
  intro a bytes hlen hbytes hne
  cases hdecode : f.decode bytes with
  | error fault => exact ⟨fault, rfl⟩
  | ok b =>
    -- The value read would be written like the beginning of `a`, so it would be `a` itself.
    have hle := hbytes.length_le
    have hb : f.write b <+: bytes := (hf.decode_eq_ok_iff (by omega)).1 hdecode
    obtain rfl : b = a := hprefix hlen (hb.trans hbytes)
    exact absurd (hbytes.eq_of_length_le hb.length_le) hne

end Format

/-- **What travels is read exactly as it is laid out.** This holds of blocks, chains and messages,
and decoding with validation accepts a chain or a block within the limit in the same way, a block
only if it states its own hashes. -/
theorem formats_spell_layouts (c : Crypto) (limit : Nat) :
    Block.format.Spells Block.layout ∧ Chain.format.Spells Chain.layout ∧
    Message.format.Spells Message.layout ∧
    (∀ (bytes : Bytes) (chain : Chain), bytes.length < Bytes.capacity 8 →
      (decodeChain limit bytes = .ok chain ↔ bytes.length ≤ limit ∧ chain.layout <+: bytes)) ∧
    ∀ (bytes : Bytes) (b : Block), bytes.length < Bytes.capacity 8 →
      ((decodeBlock c limit bytes).result = .ok b ↔
        bytes.length ≤ limit ∧ b.layout <+: bytes ∧
          c.hash b.payload = b.header.payloadHash ∧ c.hash b.header.canonicalBytes = b.hash) := by
  have hblock := Block.format_exact.spells Block.format_write
  have hchain := Chain.format_exact.spells Chain.format_write
  refine ⟨hblock, hchain, Message.format_exact.spells Message.format_write, ?_, ?_⟩
  · intro bytes chain hlen
    rw [decodeChain_eq_ok_iff, hchain.decode hlen]
  · intro bytes b hlen
    rw [decodeBlock_eq_ok_iff, hblock.decode hlen]
    constructor
    · rintro ⟨hlimit, hlayout, hhashed⟩
      exact ⟨hlimit, hlayout, hhashed.payload, hhashed.header⟩
    · rintro ⟨hlimit, hlayout, hpayload, hheader⟩
      exact ⟨hlimit, hlayout, hheader, hpayload⟩

end CosignedLedger
