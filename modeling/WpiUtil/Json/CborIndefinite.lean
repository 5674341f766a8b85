import WpiUtil.Json.CborHead

/-!
# CBOR of indefinite length

Arrays, maps and text strings that are ended by a break, next to those that announce their length.
-/

namespace Wpi.Cbor

open Foundations

/-- The bytes of an item with the value that `from_cbor` reads from all of them. -/
structure EncodedItem where
  encoding : List Byte
  value : Json
  reads : Json.fromCbor (RawMemIstream.ofBytes encoding) = (.ok value, RawMemIstream.ofBytes [])

/-- The bytes of a text string that is used as a key. -/
structure EncodedKey where
  encoding : List Byte
  key : Key
  reads : Json.fromCbor (RawMemIstream.ofBytes encoding) =
    (.ok (.string key), RawMemIstream.ofBytes [])

/-- A pair of a map. -/
structure EncodedPair where
  key : EncodedKey
  item : EncodedItem

def EncodedPair.encoding (pair : EncodedPair) : List Byte :=
  pair.key.encoding ++ pair.item.encoding

/-- A text string of definite length, as a chunk of another. -/
structure TextChunk where
  content : List Byte
  width : HeadWidth
  fits : width.Fits content.length

def TextChunk.encoding (chunk : TextChunk) : List Byte :=
  head .text chunk.width chunk.content.length ++ chunk.content

/-- The break that ends an array, a map or a text string of indefinite length. -/
def breakByte : Byte := 0xff

def indefiniteArray (items : List EncodedItem) : List Byte :=
  0x9f :: items.flatMap EncodedItem.encoding ++ [breakByte]

def definiteArray (width : HeadWidth) (items : List EncodedItem) : List Byte :=
  head .array width items.length ++ items.flatMap EncodedItem.encoding

def indefiniteMap (pairs : List EncodedPair) : List Byte :=
  0xbf :: pairs.flatMap EncodedPair.encoding ++ [breakByte]

def definiteMap (width : HeadWidth) (pairs : List EncodedPair) : List Byte :=
  head .map width pairs.length ++ pairs.flatMap EncodedPair.encoding

def indefiniteText (chunks : List TextChunk) : List Byte :=
  0x7f :: chunks.flatMap TextChunk.encoding ++ [breakByte]

/-- The text string that the chunks make up. -/
def contents (chunks : List TextChunk) : List Byte := chunks.flatMap TextChunk.content

def definiteText (width : HeadWidth) (chunks : List TextChunk) : List Byte :=
  head .text width (contents chunks).length ++ contents chunks

/-- `from_cbor` reads the same value from both. -/
def SameValue (s t : List Byte) : Prop :=
  ∃ j, Json.fromCborString s = .ok j ∧ Json.fromCborString t = .ok j

/-- The map with a text string as one of its keys, which is `text` here. -/
def mapAround (width : HeadWidth) (before : List EncodedPair) (text : List Byte)
    (item : EncodedItem) (after : List EncodedPair) : List Byte :=
  head .map width (before.length + 1 + after.length) ++ before.flatMap EncodedPair.encoding ++
    text ++ item.encoding ++ after.flatMap EncodedPair.encoding

/-- The text strings are read as the same, also as the key of a map. -/
def SameText (s t : List Byte) : Prop :=
  SameValue s t ∧ ∀ (width : HeadWidth) (before after : List EncodedPair) (item : EncodedItem),
    width.Fits (before.length + 1 + after.length) →
      SameValue (mapAround width before s item after) (mapAround width before t item after)

end Wpi.Cbor
