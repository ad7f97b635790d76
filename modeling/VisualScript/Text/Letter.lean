import VisualScript.Text.Identifier

/-!
# Text — Letter

Letters and numbers of every script, and the characters that stand for a digit.
-/

namespace VisualScript.Text

/-- Code points with a digit value: decimal digits of every script, and super- and subscripts. -/
def digitRanges : List (Nat × Nat) :=
  [(48,57),(178,179),(185,185),(1632,1641),(1776,1785),(1984,1993),(2406,2415),(2534,2543),
   (2662,2671),(2790,2799),(2918,2927),(3046,3055),(3174,3183),(3302,3311),(3430,3439),(3558,3567),
   (3664,3673),(3792,3801),(3872,3881),(4160,4169),(4240,4249),(4969,4977),(6112,6121),(6160,6169),
   (6470,6479),(6608,6618),(6784,6793),(6800,6809),(6992,7001),(7088,7097),(7232,7241),(7248,7257),
   (8304,8304),(8308,8313),(8320,8329),(9312,9320),(9332,9340),(9352,9360),(9450,9450),(9461,9469),
   (9471,9471),(10102,10110),(10112,10120),(10122,10130),(42528,42537),(43216,43225),(43264,43273),
   (43472,43481),(43504,43513),(43600,43609),(44016,44025),(65296,65305),(66720,66729),
   (68160,68163),(68912,68921),(69216,69224),(69714,69722),(69734,69743),(69872,69881),
   (69942,69951),(70096,70105),(70384,70393),(70736,70745),(70864,70873),(71248,71257),
   (71360,71369),(71472,71481),(71904,71913),(72016,72025),(72784,72793),(73040,73049),
   (73120,73129),(92768,92777),(92864,92873),(93008,93017),(120782,120831),(123200,123209),
   (123632,123641),(125264,125273),(127232,127242),(130032,130041)]

/-- Numbers without a digit value, and letters that start no identifier. -/
def otherAlphanumericRanges : List (Nat × Nat) :=
  [(188,190),(890,890),(2548,2553),(2930,2935),(3056,3058),(3192,3198),(3416,3422),(3440,3448),
   (3635,3635),(3763,3763),(3882,3891),(4978,4988),(6128,6137),(8528,8585),(9321,9371),(9451,9470),
   (10111,10131),(11517,11517),(11823,11823),(12690,12693),(12832,12841),(12872,12879),
   (12881,12895),(12928,12937),(12977,12991),(43056,43061),(64606,64611),(65018,65019),
   (65136,65140),(65142,65150),(65438,65439),(65799,65843),(65909,65912),(65930,65931),
   (66273,66299),(66336,66339),(67672,67679),(67705,67711),(67751,67759),(67835,67867),
   (68028,68047),(68050,68095),(68164,68168),(68221,68222),(68253,68255),(68331,68335),
   (68440,68447),(68472,68479),(68521,68527),(68858,68863),(69225,69246),(69405,69414),
   (69457,69460),(69573,69579),(69723,69733),(70113,70132),(71482,71483),(71914,71922),
   (72794,72812),(73664,73684),(93019,93025),(93824,93846),(119520,119539),(119648,119672),
   (125127,125135),(126065,126123),(126125,126127),(126129,126132),(126209,126253),(126255,126269),
   (127243,127244)]

/-- The underscore and other signs that may start an identifier. -/
def startingSignRanges : List (Nat × Nat) := [(95,95),(6277,6278),(8472,8472),(8494,8494)]

def isDigit (c : Char) : Bool := inRanges c.toNat digitRanges

/-- A letter, a decimal digit, another digit or a number. -/
def isAlphanumeric (c : Char) : Bool :=
  isDigit c || inRanges c.toNat otherAlphanumericRanges ||
    isIdentifierStart c && !inRanges c.toNat startingSignRanges

/-- A character of a word: a letter, a number or an underscore. -/
def isWordChar (c : Char) : Bool := c == '_' || isAlphanumeric c

end VisualScript.Text
