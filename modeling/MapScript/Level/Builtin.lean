import MapScript.Level.Basic

/-! The names that each version of the game defines by itself: constants with a value, names without one, and
names that it defines or not depending on the settings of a game. Those of the first two kinds stand in
definition files, which are scripts. -/

namespace MapScript.Builtin

inductive Line where
  | blank
  | comment (content : Text)
  | define (name : Text)
  | const (name : Text) (value : Nat)

namespace Line

def text : Line → Text
  | .blank => []
  | .comment content => "/* " ++ content ++ " */"
  | .define name => "#define " ++ name
  | .const name value => "#const " ++ name ++ " " ++ Text.ofNat value

def const? : Line → Option Text
  | .const name _ => some name
  | _ => none

def define? : Line → Option Text
  | .define name => some name
  | _ => none

end Line

abbrev DefinitionFile := List Line

def DefinitionFile.text (file : DefinitionFile) : Text := file.flatMap fun line => line.text ++ "\n"

/-- Constants under a heading with so many stars before and after it. -/
def part (before : Nat) (heading : Text) (after : Nat) (consts : List (String × Nat)) : List Line :=
  .blank :: .comment (Text.ofChars before '*' ++ " " ++ heading ++ " " ++ Text.ofChars after '*')
    :: consts.map fun (name, value) => .const name value

def conquerorsTerrains : List (String × Nat) :=
  [("GRASS", 0), ("WATER", 1), ("BEACH", 2), ("DIRT3", 3), ("SHALLOW", 4), ("LEAVES", 5),
   ("DIRT", 6), ("GRASS3", 9), ("FOREST", 10), ("DIRT2", 11), ("GRASS2", 12), ("PALM_DESERT", 13),
   ("DESERT", 14), ("JUNGLE", 17), ("BAMBOO", 18), ("PINE_FOREST", 19), ("OAK_FOREST", 20),
   ("SNOW_FOREST", 21), ("DEEP_WATER", 22), ("MED_WATER", 23), ("ROAD", 24), ("ROAD2", 25),
   ("ICE", 26), ("SNOW", 32), ("DIRT_SNOW", 33), ("GRASS_SNOW", 34), ("ICE_BEACH", 37),
   ("ROAD_SNOW", 38), ("ROAD_FUNGUS", 39), ("KOH", 40)]

def conquerorsLayers : List (String × Nat) :=
  [("PLAYER_LAND", 0)]

def conquerorsUnits : List (String × Nat) :=
  [("ARCHER", 4), ("HAND_CANNONEER", 5), ("ELITE_SKIRMISHER", 6), ("SKIRMISHER", 7),
   ("LONGBOWMAN", 8), ("MANGUDAI", 11), ("FISHING_SHIP", 13), ("TRADE_COG", 17),
   ("WAR_GALLEY", 21), ("CROSSBOWMAN", 24), ("TEUTONIC_KNIGHT", 25), ("BATTERING_RAM", 35),
   ("BOMBARD_CANNON", 36), ("KNIGHT", 38), ("CAVALRY_ARCHER", 39), ("CATAPHRACT", 40),
   ("HUSKARL", 41), ("TREBUCHET", 42), ("JANISSARY", 46), ("CHU_KO_NU", 73), ("MILITIA", 74),
   ("MAN_AT_ARMS", 75), ("LONG_SWORDSMAN", 77), ("VILLAGER", 83), ("SPEARMAN", 93), ("MONK", 125),
   ("TRADE_CART", 128), ("WOAD_RAIDER", 232), ("WAR_ELEPHANT", 239), ("LONGBOAT", 250),
   ("SCORPION", 279), ("MANGONEL", 280), ("THROWING_AXEMAN", 281), ("MAMELUKE", 282),
   ("CAVALIER", 283), ("SAMURAI", 291), ("CAMEL", 329), ("HEAVY_CAMEL", 330), ("PIKEMAN", 358),
   ("HALBERDIER", 359), ("CANNON_GALLEON", 420), ("CAPPED_RAM", 422), ("KING", 434),
   ("PETARD", 440), ("HUSSAR", 441), ("GALLEON", 442), ("SCOUT", 448),
   ("TWO_HANDED_SWORDSMAN", 473), ("HEAVY_CAV_ARCHER", 474), ("ARBALEST", 492),
   ("DEMOLITION_SHIP", 527), ("HEAVY_DEMOLITION_SHIP", 528), ("FIRE_SHIP", 529),
   ("ELITE_LONGBOWMAN", 530), ("ELITE_THROWING_AXEMAN", 531), ("FAST_FIRE_SHIP", 532),
   ("ELITE_LONGBOAT", 533), ("ELITE_WOAD_RAIDER", 534), ("GALLEY", 539), ("HEAVY_SCORPION", 542),
   ("TRANSPORT_SHIP", 545), ("LIGHT_CAVALRY", 546), ("SIEGE_RAM", 548), ("ONAGER", 550),
   ("ELITE_CATAPHRACT", 553), ("ELITE_TEUTONIC_KNIGHT", 554), ("ELITE_HUSKARL", 555),
   ("ELITE_MAMELUKE", 556), ("ELITE_JANISSARY", 557), ("ELITE_WAR_ELEPHANT", 558),
   ("ELITE_CHU_KO_NU", 559), ("ELITE_SAMURAI", 560), ("ELITE_MANGUDAI", 561), ("CHAMPION", 567),
   ("PALADIN", 569), ("SIEGE_ONAGER", 588), ("BERSERK", 692), ("ELITE_BERSERK", 694),
   ("JAGUAR_WARRIOR", 725), ("ELITE_JAGUAR_WARRIOR", 726), ("EAGLE_WARRIOR", 751),
   ("ELITE_EAGLE_WARRIOR", 752), ("TARKAN", 755), ("ELITE_TARKAN", 757), ("PLUMED_ARCHER", 763),
   ("ELITE_PLUMED_ARCHER", 765), ("CONQUISTADOR", 771), ("ELITE_CONQUISTADOR", 773),
   ("MISSIONARY", 775), ("WAR_WAGON", 827), ("ELITE_WAR_WAGON", 829), ("TURTLE_SHIP", 831),
   ("ELITE_TURTLE_SHIP", 832)]

def conquerorsBuildings : List (String × Nat) :=
  [("BARRACKS", 12), ("DOCK", 45), ("SIEGE_WORKSHOP", 49), ("FARM", 50), ("MILL", 68),
   ("HOUSE", 70), ("PALISADE_WALL", 72), ("WATCH_TOWER", 79), ("CASTLE", 82), ("MARKET", 84),
   ("ARCHERY_RANGE", 87), ("SEA_GATE", 88), ("STABLE", 101), ("BLACKSMITH", 103),
   ("MONASTERY", 104), ("TOWN_CENTER", 109), ("STONE_WALL", 117), ("FORTIFIED_WALL", 155),
   ("FISH_TRAP", 199), ("UNIVERSITY", 209), ("GUARD_TOWER", 234), ("KEEP", 235),
   ("BOMBARD_TOWER", 236), ("WONDER", 276), ("GATE", 487), ("LUMBER_CAMP", 562),
   ("MINING_CAMP", 584), ("OUTPOST", 598), ("SEA_WALL", 788)]

def conquerorsResources : List (String × Nat) :=
  [("BOAR", 48), ("PERCH", 53), ("FORAGE", 59), ("DEER", 65), ("GOLD", 66), ("SHORE_FISH", 69),
   ("HAWK", 96), ("STONE", 102), ("WOLF", 126), ("RELIC", 285), ("MARLIN1", 450), ("MARLIN2", 451),
   ("DOLPHIN", 452), ("DORADO", 455), ("SALMON", 456), ("TUNA", 457), ("SNAPPER", 458),
   ("SHEEP", 594), ("JAGUAR", 812), ("MACAW", 816), ("JAVELINA", 822), ("TURKEY", 833)]

def conquerorsScenery : List (String × Nat) :=
  [("CRATER", 241), ("RUINS", 345), ("BAMBOO_TREE", 348), ("OAKTREE", 349), ("PINETREE", 350),
   ("PALMTREE", 351), ("SNOWPINETREE", 413), ("JUNGLETREE", 414), ("FLAG_A", 600), ("FLAG_B", 601),
   ("FLAG_C", 602), ("FLAG_D", 603), ("FLAG_E", 604), ("ROCK", 623), ("CACTUS", 709),
   ("SKELETON", 710), ("MAP_REVEALER", 837), ("FLOWER_BED", 859)]

def conquerorsMapTypes : List (String × Nat) :=
  [("ARABIA", 9), ("ARCHIPELAGO", 10), ("BALTIC", 11), ("BLACK_FOREST", 12), ("COASTAL", 13),
   ("CONTINENTAL", 14), ("CRATER_LAKE", 15), ("FORTRESS", 16), ("GOLD_RUSH", 17), ("HIGHLAND", 18),
   ("ISLANDS", 19), ("MEDITERRANEAN", 20), ("MIGRATION", 21), ("RIVERS", 22), ("TEAM_ISLANDS", 23),
   ("SCANDANAVIA", 25), ("MONGOLIA", 26), ("YUCATAN", 27), ("SALT_MARSH", 28), ("ARENA", 29),
   ("OASIS", 31), ("GHOST_LAKE", 32), ("NOMAD", 33), ("IBERIA", 34), ("BRITAIN", 35),
   ("MIDEAST", 36), ("TEXAS", 37), ("ITALY", 38), ("CENTRAL_AMERICA", 39), ("FRANCE", 40),
   ("NORSE_LANDS", 41), ("SEA_OF_JAPAN", 42), ("BYZANTINIUM", 43), ("RANDOM_LAND_MAP", 45),
   ("RANDOM_REAL_WORLD_MAP", 47), ("BLIND_RANDOM", 48), ("CONVENTIONAL_RANDOM_MAP", 49)]

def hdTerrains : List (String × Nat) :=
  [("DLC_MOORLAND", 44), ("DLC_CRACKEDIT", 45), ("DLC_QUICKSAND", 46), ("DLC_BLACK", 47),
   ("DLC_DRAGONFOREST", 48), ("DLC_BAOBABFOREST", 49), ("DLC_ACACIAFOREST", 50),
   ("DLC_DRYROAD", 43), ("DLC_SAVANNAH", 41), ("DLC_DIRT4", 42), ("DLC_MANGROVESHALLOW", 54),
   ("DLC_MANGROVEFOREST", 55), ("DLC_RAINFOREST", 56), ("DLC_BEACH2", 57), ("DLC_BEACH3", 58),
   ("DLC_BEACH4", 59), ("DLC_JUNGLEGRASS", 60), ("DLC_JUNGLEROAD", 61), ("DLC_JUNGLELEAVES", 62),
   ("DLC_WATER4", 63), ("DLC_WATER5", 64)]

def hdResources : List (String × Nat) :=
  [("DLC_ELEPHANT", 1301), ("DLC_ZEBRA", 1019), ("DLC_OSTRICH", 1026), ("DLC_LION", 1029),
   ("DLC_CROCODILE", 1031), ("DLC_GOAT", 1060), ("DLC_WATERBUFFALO", 1142),
   ("DLC_RHINOCEROS", 1139), ("DLC_FISH_BOXFISH", 1056), ("DLC_FISH_CARP", 1063)]

def hdUnits : List (String × Nat) :=
  [("DLC_FEITORIA", 1021), ("DLC_CARAVANSERAI", 1754)]

def hdMapTypes : List (String × Nat) :=
  [("KILIMANJARO", 71), ("MOUNTAINPASS", 72), ("NILEDELTA", 73), ("SERENGETI", 74),
   ("SOCOTRA", 75)]

def assignTargets : List (String × Nat) :=
  [("AT_PLAYER", 0), ("AT_COLOR", 1), ("AT_TEAM", 2)]

def userPatchEffectTypes : List (String × Nat) :=
  [("SET_ATTRIBUTE", 0), ("MOD_RESOURCE", 1), ("ENABLE_OBJECT", 2), ("UPGRADE_UNIT", 3),
   ("ADD_ATTRIBUTE", 4), ("MUL_ATTRIBUTE", 5), ("MUL_RESOURCE", 6), ("ENABLE_TECH", 7),
   ("MODIFY_TECH", 8), ("SET_PLAYER_DATA", 9), ("SET_TECH_COST", 100), ("ADD_TECH_COST", 101),
   ("DISABLE_TECH", 102), ("DISABLE_OBJECT", 103), ("SET_OBJECT_COST", 104),
   ("GAIA_UPGRADE_UNIT", 105), ("GAIA_SET_ATTRIBUTE", 106), ("GAIA_ADD_ATTRIBUTE", 107),
   ("GAIA_MUL_ATTRIBUTE", 108)]

def userPatchAttributes : List (String × Nat) :=
  [("ATTR_HITPOINTS", 0), ("ATTR_LINE_OF_SIGHT", 1), ("ATTR_GARRISON_CAPACITY", 2),
   ("ATTR_MOVE_SPEED", 5), ("ATTR_ARMOR", 8), ("ATTR_ATTACK", 9), ("ATTR_RELOAD_TIME", 10),
   ("ATTR_MAX_RANGE", 12), ("ATTR_WORK_RATE", 13), ("ATTR_CARRY_CAPACITY", 14)]

def userPatchResources : List (String × Nat) :=
  [("AMOUNT_FOOD", 0), ("AMOUNT_WOOD", 1), ("AMOUNT_STONE", 2), ("AMOUNT_GOLD", 3),
   ("AMOUNT_POPULATION_CAP", 4), ("AMOUNT_STARTING_FOOD", 91), ("AMOUNT_STARTING_WOOD", 92),
   ("AMOUNT_STARTING_STONE", 93), ("AMOUNT_STARTING_GOLD", 94), ("AMOUNT_STARTING_VILLAGERS", 84)]

def userPatchTechs : List (String × Nat) :=
  [("DARK_AGE", 104), ("FEUDAL_AGE", 101), ("CASTLE_AGE", 102), ("IMPERIAL_AGE", 103),
   ("TECH_LOOM", 22), ("TECH_WHEELBARROW", 213), ("TECH_TOWN_WATCH", 8)]

def definitiveTerrains : List (String × Nat) :=
  [("GRASS_2", 12), ("FOREST_BUSH", 89), ("SWAMP_BOGLAND", 74), ("BEACH_WET", 109),
   ("BEACH_WHITE", 79), ("ROCK_1", 40), ("UNDERBUSH", 71), ("DESERT_CRACKED", 45),
   ("DESERT_QUICKSAND", 46)]

def definitiveResources : List (String × Nat) :=
  [("LLAMA", 1245), ("GOAT", 1060), ("WATER_BUFFALO", 1142), ("ZEBRA", 1019), ("OSTRICH", 1026),
   ("ELEPHANT", 1301), ("RHINOCEROS", 1139), ("IBEX", 1239), ("FRUIT_BUSH", 1059)]

def definitiveUnits : List (String × Nat) :=
  [("DONJON", 1665), ("KREPOST", 1251), ("FORTIFIED_PALISADE_WALL", 1582)]

def conquerorsFile : DefinitionFile :=
  [.comment "Builtin definitions for Age of Empires II: The Conquerors"]
    ++ part 30 "TERRAINS" 30 conquerorsTerrains
    ++ part 31 "LAYERS" 31 conquerorsLayers
    ++ part 31 "UNITS" 32 conquerorsUnits
    ++ part 29 "BUILDINGS" 30 conquerorsBuildings
    ++ part 30 "RESOURCES" 29 conquerorsResources
    ++ part 25 "TREES & DECORATION" 25 conquerorsScenery
    ++ part 30 "AI TYPES" 30 conquerorsMapTypes

def hdFile : DefinitionFile :=
  [.comment "Builtin definitions added by Age of Empires II: HD Edition and its expansions"]
    ++ part 30 "TERRAINS" 30 hdTerrains
    ++ part 30 "RESOURCES" 29 hdResources
    ++ part 26 "BUILDINGS & UNITS" 25 hdUnits
    ++ part 30 "AI TYPES" 30 hdMapTypes

def userPatchFile : DefinitionFile :=
  [.comment "Builtin definitions provided by UserPatch 1.5", .blank, .define "UP_AVAILABLE", .define "UP_EXTENSION"]
    ++ part 29 "ASSIGN_TO" 30 assignTargets
    ++ part 29 "EFFECT TYPES" 27 userPatchEffectTypes
    ++ part 30 "ATTRIBUTES" 28 userPatchAttributes
    ++ part 30 "RESOURCES" 29 userPatchResources
    ++ part 30 "TECHS" 33 userPatchTechs

def definitiveFile : DefinitionFile :=
  [.comment "Builtin definitions for Age of Empires II: Definitive Edition", .blank, .define "DE_AVAILABLE"]
    ++ part 29 "ASSIGN_TO" 30 assignTargets
    ++ part 30 "TERRAINS" 30 definitiveTerrains
    ++ part 30 "RESOURCES" 29 definitiveResources
    ++ part 26 "BUILDINGS & UNITS" 25 definitiveUnits

def sizeOptions : List Text :=
  ["TINY_MAP", "SMALL_MAP", "MEDIUM_MAP", "LARGE_MAP", "HUGE_MAP", "GIGANTIC_MAP", "UP_AVAILABLE",
   "UP_EXTENSION"]

def gameOptions : List Text :=
  ["FIXED_POSITIONS", "AI_PLAYERS", "CAPTURE_RELIC", "DEATH_MATCH", "DEFEND_WONDER", "KING_OT_HILL",
   "RANDOM_MAP", "REGICIDE", "TURBO_RANDOM_MAP", "WONDER_RACE"]

/-- Names that depend on the players: how many there are, in how many teams, who is in which team, and how
large each team is. Players count from one, teams from zero. -/
def playerOptions : List Text :=
  (List.range 8).map (fun players => Text.ofNat (players + 1) ++ "_PLAYER_GAME")
    ++ (List.range 5).map (fun teams => Text.ofNat teams ++ "_TEAM_GAME")
    ++ (List.range 5).flatMap (fun team => (List.range 8).map fun player =>
        "PLAYER" ++ Text.ofNat (player + 1) ++ "_TEAM" ++ Text.ofNat team)
    ++ (List.range 5).flatMap (fun team => (List.range 9).map fun size =>
        "TEAM" ++ Text.ofNat team ++ "_SIZE" ++ Text.ofNat size)

end MapScript.Builtin

namespace MapScript.Level

open Builtin

def files : Level → List DefinitionFile
  | .all => [conquerorsFile]
  | .conquerors => [conquerorsFile]
  | .userPatch14 => [conquerorsFile]
  | .hdEdition => [conquerorsFile, hdFile]
  | .userPatch15 => [conquerorsFile, userPatchFile]
  | .wololoKingdoms => [conquerorsFile, hdFile, userPatchFile]
  | .definitiveEdition => [conquerorsFile, hdFile, definitiveFile]

def consts (level : Level) : List Text := level.files.flatMap (·.filterMap Line.const?)

def defines (level : Level) : List Text := level.files.flatMap (·.filterMap Line.define?)

def options (level : Level) : List Text :=
  if .userPatch15 ≤ level then sizeOptions ++ gameOptions ++ playerOptions else sizeOptions

end MapScript.Level
