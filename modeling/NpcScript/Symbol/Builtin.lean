import NpcScript.Symbol.Spelling
import NpcScript.Symbol.Table

/-! # The built-in symbols

The vocabulary that every script can use. Functions, variables and operators
are numbered in order of their names here; constants come in families, each
counted from zero or made of the powers of two. -/
namespace NpcScript

namespace Builtin

/-- Names with consecutive values from a first one on. -/
def numbered (kind : Kind) (first : Nat) (names : List String) : List Symbol :=
  names.zipIdx.map fun n => ⟨n.1, kind, Int32.ofNat (first + n.2)⟩

/-- Names for the single bits, lowest first. -/
def bits (names : List String) : List Symbol :=
  names.zipIdx.map fun n => ⟨n.1, .constant, Int32.ofNat (1 <<< n.2)⟩

def functions : List Symbol :=
  numbered .function 0
    ["IfSpawned", "IfTimeOut", "IfAtWaypoint", "IfAtLastWaypoint", "IfAttacked", "IfBumped",
     "IfOrdered", "IfCalledForHelp", "SetContent", "IfKilled", "IfTargetKilled",
     "ClearWaypoints", "AddWaypoint", "FindPath", "Compass", "GetTargetArmorPrice", "SetTime",
     "GetContent", "JoinTargetTeam", "SetTargetToNearbyEnemy", "SetTargetToTargetLeftHand",
     "SetTargetToTargetRightHand", "SetTargetToWhoeverAttacked", "SetTargetToWhoeverBumped",
     "SetTargetToWhoeverCalledForHelp", "SetTargetToOldTarget", "SetTurnModeToVelocity",
     "SetTurnModeToWatch", "SetTurnModeToSpin", "SetBumpHeight", "IfTargetHasID",
     "IfTargetHasItemID", "IfTargetHoldingItemID", "IfTargetHasSkillID", "Else", "Run", "Walk",
     "Sneak", "DoAction", "KeepAction", "IssueOrder", "DropWeapons", "TargetDoAction",
     "OpenPassage", "ClosePassage", "IfPassageOpen", "GoPoof", "CostTargetItemID",
     "DoActionOverride", "IfHealed", "SendMessage", "CallForHelp", "AddIDSZ", "End",
     "IfStateIs", "IfTargetCanOpenStuff", "IfGrabbed", "IfDropped",
     "SetTargetToWhoeverIsHolding", "DamageTarget", "IfXIsLessThanY", "SetWeatherTime",
     "GetBumpHeight", "IfReaffirmed", "UnkeepAction", "IfTargetIsOnOtherTeam",
     "IfTargetIsOnHatedTeam", "PressLatchButton", "SetTargetToTargetOfLeader", "IfLeaderKilled",
     "BecomeLeader", "ChangeTargetArmor", "GiveMoneyToTarget", "DropKeys", "IfLeaderIsAlive",
     "IfTargetIsOldTarget", "SetTargetToLeader", "SpawnCharacter", "RespawnCharacter",
     "ChangeTile", "IfUsed", "DropMoney", "SetOldTarget", "DetachFromHolder",
     "IfTargetHasVulnerabilityID", "CleanUp", "IfCleanedUp", "IfSitting", "IfTargetIsHurt",
     "IfTargetIsAPlayer", "PlaySound", "SpawnParticle", "IfTargetIsAlive", "Stop",
     "DisaffirmCharacter", "ReaffirmCharacter", "IfTargetIsSelf", "IfTargetIsMale",
     "IfTargetIsFemale", "SetTargetToSelf", "SetTargetToRider", "GetAttackTurn",
     "GetDamageType", "BecomeSpell", "BecomeSpellbook", "IfScoredAHit", "IfDisaffirmed",
     "TranslateOrder", "SetTargetToWhoeverWasHit", "SetTargetToWideEnemy", "IfChanged",
     "IfInWater", "IfBored", "IfTooMuchBaggage", "IfGrogged", "IfDazed", "IfTargetHasSpecialID",
     "PressTargetLatchButton", "IfInvisible", "IfArmorIs", "GetTargetGrogTime",
     "GetTargetDazeTime", "SetDamageType", "SetWaterLevel", "EnchantTarget", "EnchantChild",
     "TeleportTarget", "GiveExperienceToTarget", "IncreaseAmmo", "UnkurseTarget",
     "GiveExperienceToTargetTeam", "IfUnarmed", "RestockTargetAmmoIDAll",
     "RestockTargetAmmoIDFirst", "FlashTarget", "SetRedShift", "SetGreenShift", "SetBlueShift",
     "SetLight", "SetAlpha", "IfHitFromBehind", "IfHitFromFront", "IfHitFromLeft",
     "IfHitFromRight", "IfTargetIsOnSameTeam", "KillTarget", "UndoEnchant", "GetWaterLevel",
     "CostTargetMana", "IfTargetHasAnyID", "SetBumpSize", "IfNotDropped", "IfYIsLessThanX",
     "SetFlyHeight", "IfBlocked", "IfTargetIsDefending", "IfTargetIsAttacking", "IfStateIs0",
     "IfStateIs1", "IfStateIs2", "IfStateIs3", "IfStateIs4", "IfStateIs5", "IfStateIs6",
     "IfStateIs7", "IfContentIs", "SetTurnModeToWatchTarget", "IfStateIsNot", "IfXIsEqualToY",
     "DebugMessage", "BlackTarget", "SendMessageNear", "IfHitGround", "IfNameIsKnown",
     "IfUsageIsKnown", "IfHoldingItemID", "IfHoldingRangedWeapon", "IfHoldingMeleeWeapon",
     "IfHoldingShield", "IfKursed", "IfTargetIsKursed", "IfTargetIsDressedUp", "IfOverWater",
     "IfThrown", "MakeNameKnown", "MakeUsageKnown", "StopTargetMovement", "SetXY", "GetXY",
     "AddXY", "MakeAmmoKnown", "SpawnAttachedParticle", "SpawnExactParticle",
     "AccelerateTarget", "IfDistanceIsMoreThanTurn", "IfCrushed", "MakeCrushValid",
     "SetTargetToLowestTarget", "IfNotPutAway", "IfTakenOut", "IfAmmoOut", "PlaySoundLooped",
     "StopSound", "HealSelf", "Equip", "IfTargetHasItemIDEquipped", "SetOwnerToTarget",
     "SetTargetToOwner", "SetFrame", "BreakPassage", "SetReloadTime", "SetTargetToWideBlahID",
     "PoofTarget", "ChildDoActionOverride", "SpawnPoof", "SetSpeedPercent", "SetChildState",
     "SpawnAttachedSizedParticle", "ChangeArmor", "ShowTimer", "IfFacingTarget",
     "PlaySoundVolume", "SpawnAttachedFacedParticle", "IfStateIsOdd", "SetTargetToDistantEnemy",
     "Teleport", "GiveStrengthToTarget", "GiveWisdomToTarget", "GiveIntelligenceToTarget",
     "GiveDexterityToTarget", "GiveLifeToTarget", "GiveManaToTarget", "ShowMap",
     "ShowYouAreHere", "ShowBlipXY", "HealTarget", "PumpTarget", "CostAmmo",
     "MakeSimilarNamesKnown", "SpawnAttachedHolderParticle", "SetTargetReloadTime",
     "SetFogLevel", "GetFogLevel", "SetFogTAD", "SetFogBottomLevel", "GetFogBottomLevel",
     "CorrectActionForHand", "IfTargetIsMounted", "SparkleIcon", "UnsparkleIcon", "GetTileXY",
     "SetTileXY", "SetShadowSize", "OrderTarget", "SetTargetToWhoeverIsInPassage",
     "IfCharacterWasABook", "SetEnchantBoostValues", "SpawnCharacterXYZ",
     "SpawnExactCharacterXYZ", "ChangeTargetClass", "PlayFullSound", "SpawnExactChaseParticle",
     "CreateOrder", "OrderSpecialID", "UnkurseTargetInventory", "IfTargetIsSneaking",
     "DropItems", "RespawnTarget", "TargetDoActionSetFrame", "IfTargetCanSeeInvisible",
     "SetTargetToNearestBlahID", "SetTargetToNearestEnemy", "SetTargetToNearestFriend",
     "SetTargetToNearestLifeform", "FlashPassage", "FindTileInPassage", "IfHeldInLeftHand",
     "NotAnItem", "SetChildAmmo", "IfHitVulnerable", "IfTargetIsFlying", "IdentifyTarget",
     "BeatModule", "EndModule", "DisableExport", "EnableExport", "GetTargetState", "IfEquipped",
     "DropTargetMoney", "GetTargetContent", "DropTargetKeys", "JoinTeam", "TargetJoinTeam",
     "ClearMusicPassage", "ClearEndMessage", "AddEndMessage", "PlayMusic", "SetMusicPassage",
     "MakeCrushInvalid", "StopMusic", "FlashVariable", "AccelerateUp", "FlashVariableHeight",
     "SetDamageTime", "IfStateIs8", "IfStateIs9", "IfStateIs10", "IfStateIs11", "IfStateIs12",
     "IfStateIs13", "IfStateIs14", "IfStateIs15", "IfTargetIsAMount", "IfTargetIsAPlatform",
     "AddStat", "DisenchantTarget", "DisenchantAll", "SetVolumeNearestTeammate",
     "AddShopPassage", "TargetPayForArmor", "JoinEvilTeam", "JoinNullTeam", "JoinGoodTeam",
     "PitsKill", "SetTargetToPassageID", "MakeNameUnknown", "SpawnExactParticleEndSpawn",
     "SpawnPoofSpeedSpacingDamage", "GiveExperienceToGoodTeam", "DoNothing", "GrogTarget",
     "DazeTarget", "EnableRespawn", "DisableRespawn", "IfHolderScoredAHit", "IfHolderBlocked",
     "IfTargetHasNotFullMana", "EnableListenSkill", "SetTargetToLastItemUsed", "FollowLink",
     "IfOperatorIsLinux", "IfTargetIsAWeapon", "IfSomeoneIsStealing", "IfTargetIsASpell",
     "IfBackstabbed", "GetTargetDamageType", "AddQuest", "BeatQuestAllPlayers",
     "IfTargetHasQuest", "SetQuestLevel", "AddQuestAllPlayers", "AddBlipAllEnemies", "PitsFall",
     "IfTargetIsOwner", "SetSpeech", "TakePicture", "IfOperatorIsMacintosh", "IfModuleHasIDSZ",
     "MorphToTarget", "GiveManaFlowToTarget", "GiveManaReturnToTarget", "SetMoney",
     "IfTargetCanSeeKurses", "SpawnAttachedCharacter", "KurseTarget", "SetChildContent",
     "SetTargetToChild", "SetDamageThreshold", "AccelerateTargetUp", "SetTargetAmmo",
     "EnableInvictus", "DisableInvictus", "TargetDamageSelf", "SetTargetSize",
     "IfTargetIsFacingSelf", "DrawBillboard", "SetTargetToFirstBlahInPassage", "IfLevelUp",
     "GiveSkillToTarget", "SetTargetToNearbyMeleeWeapon"]

/-- The distance register has a short and a long name; the short one shows it. -/
def registers : List Symbol :=
  numbered .var 0 ["tmpx", "tmpy", "tmpdist"] ++
  numbered .var 2
    ["tmpdistance", "tmpturn", "tmpargument", "rand", "selfx", "selfy", "selfturn",
     "selfcounter", "selforder", "selfmorale", "selflife", "targetx", "targety",
     "targetdistance", "targetturn", "leaderx", "leadery", "leaderdistance", "leaderturn",
     "gotox", "gotoy", "gotodistance", "targetturnto", "passage", "weight", "selfaltitude",
     "selfid", "selfhateid", "selfmana", "targetstr", "targetwis", "targetint", "targetdex",
     "targetlife", "targetmana", "targetlevel", "targetspeedx", "targetspeedy", "targetspeedz",
     "selfspawnx", "selfspawny", "selfstate", "selfstr", "selfwis", "selfint", "selfdex",
     "selfmanaflow", "targetmanaflow", "selfattached", "swingturn", "xydistance", "selfz",
     "targetaltitude", "targetz", "selfindex", "ownerx", "ownery", "ownerturn", "ownerdistance",
     "ownerturnto", "xyturnto", "selfmoney", "selfaccel", "targetexp", "selfammo", "targetammo",
     "targetmoney", "targetturnaway", "selflevel", "targetreloadtime", "spawndistance",
     "targetmaxlife", "targetteam", "targetarmor", "difficulty", "timehours", "timeminutes",
     "timeseconds", "datemonth", "dateday", "SetState"]

def operators : List Symbol :=
  numbered .operator 0 ["+", "-", "&", ">", "<", "*", "/", "%"]

def constants : List Symbol :=
  bits
    ["LATCHLEFT", "LATCHRIGHT", "LATCHJUMP", "LATCHALTLEFT", "LATCHALTRIGHT", "LATCHPACKLEFT",
     "LATCHPACKRIGHT"] ++
  numbered .constant 0
    ["DAMAGESLASH", "DAMAGECRUSH", "DAMAGEPOKE", "DAMAGEHOLY", "DAMAGEEVIL", "DAMAGEFIRE",
     "DAMAGEICE", "DAMAGEZAP"] ++
  numbered .constant 0
    ["ACTIONDA", "ACTIONDB", "ACTIONDC", "ACTIONDD", "ACTIONUA", "ACTIONUB", "ACTIONUC",
     "ACTIONUD", "ACTIONTA", "ACTIONTB", "ACTIONTC", "ACTIONTD", "ACTIONCA", "ACTIONCB",
     "ACTIONCC", "ACTIONCD", "ACTIONSA", "ACTIONSB", "ACTIONSC", "ACTIONSD", "ACTIONBA",
     "ACTIONBB", "ACTIONBC", "ACTIONBD", "ACTIONLA", "ACTIONLB", "ACTIONLC", "ACTIONLD",
     "ACTIONXA", "ACTIONXB", "ACTIONXC", "ACTIONXD", "ACTIONFA", "ACTIONFB", "ACTIONFC",
     "ACTIONFD", "ACTIONPA", "ACTIONPB", "ACTIONPC", "ACTIONPD", "ACTIONEA", "ACTIONEB",
     "ACTIONRA", "ACTIONZA", "ACTIONZB", "ACTIONZC", "ACTIONZD", "ACTIONWA", "ACTIONWB",
     "ACTIONWC", "ACTIONWD", "ACTIONJA", "ACTIONJB", "ACTIONJC", "ACTIONHA", "ACTIONHB",
     "ACTIONHC", "ACTIONHD", "ACTIONKA", "ACTIONKB", "ACTIONKC", "ACTIONKD", "ACTIONMA",
     "ACTIONMB", "ACTIONMC", "ACTIONMD", "ACTIONME", "ACTIONMF", "ACTIONMG", "ACTIONMH",
     "ACTIONMI", "ACTIONMJ", "ACTIONMK", "ACTIONML", "ACTIONMM", "ACTIONMN"] ++
  numbered .constant 0
    ["EXPSECRET", "EXPQUEST", "EXPDARE", "EXPKILL", "EXPMURDER", "EXPREVENGE", "EXPTEAMWORK",
     "EXPROLEPLAY"] ++
  numbered .constant 0
    ["MESSAGEDEATH", "MESSAGEHATE", "MESSAGEOUCH", "MESSAGEFRAG", "MESSAGEACCIDENT",
     "MESSAGECOSTUME"] ++
  numbered .constant 0
    ["ORDERMOVE", "ORDERATTACK", "ORDERASSIST", "ORDERSTAND", "ORDERTERRAIN"] ++
  numbered .constant 0 ["WHITE", "RED", "YELLOW", "GREEN", "BLUE", "PURPLE"] ++
  bits
    ["FXNOREFLECT", "FXDRAWREFLECT", "FXANIM", "FXWATER", "FXBARRIER", "FXIMPASS", "FXDAMAGE",
     "FXSLIPPY"] ++
  numbered .constant 0 ["TEAMA", "TEAMB", "TEAMC", "TEAMD", "TEAME"] ++
  numbered .constant 13 ["TEAMN"] ++
  numbered .constant 0 ["INVENTORY", "LEFT", "RIGHT"] ++
  numbered .constant 0 ["EASY", "NORMAL", "HARD"] ++
  numbered .constant 0
    ["STATEPARRY", "STATEWANDER", "STATEGUARD", "STATEFOLLOW", "STATESURROUND", "STATERETREAT",
     "STATECHARGE", "STATECOMBAT"] ++
  bits ["BLAHDEAD", "BLAHENEMIES", "BLAHFRIENDS", "BLAHITEMS", "BLAHINVERTID", "BLAHPLAYERS"]

def entries : List Symbol := functions ++ registers ++ operators ++ constants

theorem map_name_numbered (kind : Kind) (first : Nat) (names : List String) :
    (numbered kind first names).map Symbol.name = names := by
  rw [numbered, List.map_map]
  exact List.zipIdx_map_fst 0 names

theorem map_name_bits (names : List String) : (bits names).map Symbol.name = names := by
  rw [bits, List.map_map]
  exact List.zipIdx_map_fst 0 names

set_option maxRecDepth 8000 in
/-- The names letter by letter. They are well written for their kinds, and their
numbers have distinct remainders. -/
theorem exists_spelling :
    ∃ spelling : List (List Char),
      entries.map Symbol.name = spelling.map String.ofList ∧
      ((entries.map Symbol.kind).zip spelling).all (fun p => p.1.writes p.2) = true ∧
      distinctRemainders 23118 0 (spelling.map spellingNumber) = true := by
  apply Exists.intro
  apply And.intro
  · simp only [entries, functions, registers, operators, constants, List.map_append, map_name_numbered,
      map_name_bits, List.cons_append, List.nil_append]
    -- each literal is unfolded to its characters, which fills in the spelling
    repeat (apply cons_eq_map_ofList; rfl)
    exact List.map_nil.symm
  · decide +kernel

theorem writes_name {e : Symbol} (he : e ∈ entries) : e.kind.writes e.name.toList = true := by
  obtain ⟨spelling, hspells, hwrites, _⟩ := exists_spelling
  rw [eq_map_toList hspells, List.map_map, List.zip_map', List.all_map, List.all_eq_true] at hwrites
  exact hwrites e he

theorem nodup_names : (entries.map Symbol.name).Nodup := by
  obtain ⟨spelling, hspells, _, hdistinct⟩ := exists_spelling
  exact nodup_of_spelling hspells hdistinct

end Builtin

/-- The vocabulary that scripts are compiled with unless another one is given. No
name occurs twice, so the entries are taken as they are. -/
def SymbolTable.builtin : SymbolTable := .ofDistinct Builtin.entries Builtin.nodup_names

end NpcScript
