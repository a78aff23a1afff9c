import Mathlib.Logic.Function.Basic
import NebulaX.Engine.Order

/-!
# `NebulaX.Server.ItchParser`: messages to events

`itch_parser.cpp`. A message is the list of its bytes, without the length prefix. An event
of the source is one record whose fields are set as far as the type of the event needs
them; here it is an inductive type with the fields of each case.
-/

set_option autoImplicit false

namespace NebulaX

/-- `struct ItchEvent`. -/
inductive ItchEvent where
  | add (locate : UInt16) (orderRef : UInt64) (side : Side) (shares price : UInt32)
  | delete (locate : UInt16) (orderRef : UInt64)
  | cancel (locate : UInt16) (orderRef : UInt64) (shares : UInt32)
  | replace (locate : UInt16) (orderRef newOrderRef : UInt64) (shares price : UInt32)
  | book (locate : UInt16)
  deriving DecidableEq, Repr, Inhabited

/-- `class ItchParser`: the map from symbols to locates. -/
structure ItchParser where
  symbolMap : List UInt8 → Option UInt16 := fun _ => none

namespace ItchParser

/-- The byte at an offset. The offsets read lie within the message. -/
def byteAt (m : List UInt8) (i : Nat) : UInt8 := m.getD i 0

/-- `rd_u16`, big endian. -/
def rdU16 (m : List UInt8) (i : Nat) : UInt16 :=
  ((byteAt m i).toUInt16 <<< 8) ||| (byteAt m (i + 1)).toUInt16

/-- `rd_u32`, big endian. -/
def rdU32 (m : List UInt8) (i : Nat) : UInt32 :=
  ((byteAt m i).toUInt32 <<< 24) ||| ((byteAt m (i + 1)).toUInt32 <<< 16)
    ||| ((byteAt m (i + 2)).toUInt32 <<< 8) ||| (byteAt m (i + 3)).toUInt32

/-- `rd_u64`, big endian. -/
def rdU64 (m : List UInt8) (i : Nat) : UInt64 :=
  (List.range 8).foldl (fun v k => (v <<< 8) ||| (byteAt m (i + k)).toUInt64) 0

/-- `itch_to_cents`. -/
def itchToCents (itchPrice : UInt32) : UInt32 := itchPrice / 100

/-- The symbol of a stock directory message: eight bytes up to the first zero byte, without
the blanks at the end. -/
def symbolOf (m : List UInt8) : List UInt8 :=
  ((((List.range 8).map fun i => byteAt m (11 + i)).takeWhile (· ≠ 0)).reverse.dropWhile
    (· = 32)).reverse

/-- `ItchParser::feed`. The event is `none` where the source returns `false`. -/
def feed (p : ItchParser) (m : List UInt8) : ItchParser × Option ItchEvent :=
  if m.length < 3 then (p, none)
  else
    let mt := byteAt m 0
    if mt = 82 then  -- 'R'
      if m.length < 19 then (p, none)
      else if symbolOf m = [] then (p, none)
      else ({ symbolMap := Function.update p.symbolMap (symbolOf m) (some (rdU16 m 1)) }, none)
    else if mt = 65 ∨ mt = 70 then  -- 'A', 'F'
      if m.length < 36 then (p, none)
      else (p, some (.add (rdU16 m 1) (rdU64 m 11) (if byteAt m 19 = 83 then .sell else .buy)
        (rdU32 m 20) (itchToCents (rdU32 m 32))))
    else if mt = 68 then  -- 'D'
      if m.length < 19 then (p, none)
      else (p, some (.delete (rdU16 m 1) (rdU64 m 11)))
    else if mt = 88 then  -- 'X'
      if m.length < 23 then (p, none)
      else (p, some (.cancel (rdU16 m 1) (rdU64 m 11) (rdU32 m 19)))
    else if mt = 85 then  -- 'U'
      if m.length < 35 then (p, none)
      else (p, some (.replace (rdU16 m 1) (rdU64 m 11) (rdU64 m 19) (rdU32 m 27)
        (itchToCents (rdU32 m 31))))
    else if mt = 81 then  -- 'Q'
      (p, some (.book (rdU16 m 1)))
    else (p, none)

end ItchParser

end NebulaX
