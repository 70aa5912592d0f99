import MapScript.Catalog.Entry

/-! The names that the game knows, in order, with their places and arguments. -/

namespace MapScript.Catalog

def flow : Context := .one .flow none

def sectionMark : Context := .one .sectionMark none

def command (sectionName : Text) : Context := .one .command (some sectionName)

def topAttribute (sectionName : Text) : Context := .one .topAttribute (some sectionName)

def inside (commandName : Text) : Context := .one .attribute (some commandName)

def playerSetup : Context := topAttribute "<PLAYER_SETUP>"

def effect : Context := .anyOf [playerSetup, command "<PLAYER_SETUP>"]

def cliffGeneration : Context := topAttribute "<CLIFF_GENERATION>"

def inLand : Context := .anyOf [inside "create_land", inside "create_player_lands"]

def inTerrainOrElevation : Context := .anyOf [inside "create_terrain", inside "create_elevation"]

def inConnection : Context :=
  .anyOf [inside "create_connect_all_players_land", inside "create_connect_teams_lands",
    inside "create_connect_same_land_zones", inside "create_connect_all_lands",
    inside "create_connect_to_nonplayer_land"]

def flowEntries : List Entry :=
  [.mk "#define" flow [.word],
   .mk "#undefine" flow [.word],
   .mk "#const" flow [.word, .number],
   .mk "if" flow [.optionalToken],
   .mk "elseif" flow [.optionalToken],
   .mk "else" flow [],
   .mk "endif" flow [],
   .mk "start_random" flow [],
   .mk "percent_chance" flow [.number],
   .mk "end_random" flow [],
   .mk "#include" flow [.fileName],
   .mk "#include_drs" flow [.fileName, .number]]

def sectionEntries : List Entry :=
  [.mk "<PLAYER_SETUP>" sectionMark [],
   .mk "<LAND_GENERATION>" sectionMark [],
   .mk "<ELEVATION_GENERATION>" sectionMark [],
   .mk "<TERRAIN_GENERATION>" sectionMark [],
   .mk "<CLIFF_GENERATION>" sectionMark [],
   .mk "<OBJECTS_GENERATION>" sectionMark [],
   .mk "<CONNECTION_GENERATION>" sectionMark []]

def setupEntries : List Entry :=
  [.mk "color_correction" (.one .topAttribute none) [.token],
   .mk "ai_info_map_type" playerSetup [.token, .number, .number, .number],
   .mk "random_placement" playerSetup [],
   .mk "direct_placement" playerSetup [],
   .mk "circle_placement" playerSetup [],
   .mk "circle_radius" playerSetup [.number],
   .mk "nomad_resources" playerSetup [],
   .mk "grouped_by_team" playerSetup [],
   .mk "terrain_state" playerSetup [.number, .number, .number, .number],
   .mk "weather_type" playerSetup [.number, .number, .number, .number],
   .mk "guard_state" playerSetup [.token, .token, .number, .number],
   .mk "enable_waves" playerSetup [.number],
   .mk "terrain_mask" playerSetup [.number],
   .mk "effect_amount" effect [.token, .token, .token, .number],
   .mk "effect_percent" effect [.token, .token, .token, .number]]

def landEntries : List Entry :=
  [.mk "create_land" (command "<LAND_GENERATION>") [],
   .mk "create_player_lands" (command "<LAND_GENERATION>") [],
   .mk "land_percent" inLand [.number],
   .mk "land_position" inLand [.number, .number],
   .mk "land_id" inLand [.number],
   .mk "terrain_type"
      (.anyOf [inside "create_land", inside "create_player_lands", inside "create_terrain"]) [.token],
   .mk "base_size" inLand [.number],
   .mk "base_elevation" inLand [.number],
   .mk "left_border" inLand [.number],
   .mk "right_border" inLand [.number],
   .mk "top_border" inLand [.number],
   .mk "bottom_border" inLand [.number],
   .mk "border_fuzziness" inLand [.number],
   .mk "zone" inLand [.number],
   .mk "set_zone_by_team" inLand [],
   .mk "set_zone_randomly" inLand [],
   .mk "other_zone_avoidance_distance" inLand [.number],
   .mk "assign_to_player" (inside "create_land") [.number],
   .mk "assign_to" (inside "create_land") [.token, .number, .number, .number],
   .mk "base_terrain"
      (.anyOf [topAttribute "<LAND_GENERATION>", inside "create_land",
        inside "create_player_lands", inside "create_elevation", inside "create_terrain",
        inside "create_object"]) [.token]]

def cliffEntries : List Entry :=
  [.mk "min_number_of_cliffs" cliffGeneration [.number],
   .mk "max_number_of_cliffs" cliffGeneration [.number],
   .mk "min_length_of_cliff" cliffGeneration [.number],
   .mk "max_length_of_cliff" cliffGeneration [.number],
   .mk "cliff_curliness" cliffGeneration [.number],
   .mk "min_distance_cliffs" cliffGeneration [.number],
   .mk "min_terrain_distance" cliffGeneration [.number]]

def terrainEntries : List Entry :=
  [.mk "create_terrain" (command "<TERRAIN_GENERATION>") [.token],
   .mk "percent_of_land" (inside "create_terrain") [.number],
   .mk "number_of_tiles" inTerrainOrElevation [.number],
   .mk "number_of_clumps" inTerrainOrElevation [.number],
   .mk "set_scale_by_groups" inTerrainOrElevation [],
   .mk "set_scale_by_size" inTerrainOrElevation [],
   .mk "spacing_to_other_terrain_types" (inside "create_terrain") [.number],
   .mk "height_limits" (inside "create_terrain") [.number, .number],
   .mk "set_flat_terrain_only" (inside "create_terrain") [],
   .mk "set_avoid_player_start_areas" (inside "create_terrain") [],
   .mk "clumping_factor" (inside "create_terrain") [.number],
   .mk "base_layer" (inside "create_terrain") [.token]]

def objectEntries : List Entry :=
  [.mk "create_object" (command "<OBJECTS_GENERATION>") [.token],
   .mk "set_scaling_to_map_size" (inside "create_object") [],
   .mk "set_scaling_to_player_number" (inside "create_object") [],
   .mk "number_of_groups" (inside "create_object") [.number],
   .mk "number_of_objects" (inside "create_object") [.number],
   .mk "group_variance" (inside "create_object") [.number],
   .mk "group_placement_radius" (inside "create_object") [.number],
   .mk "set_loose_grouping" (inside "create_object") [],
   .mk "set_tight_grouping" (inside "create_object") [],
   .mk "terrain_to_place_on" (inside "create_object") [.token],
   .mk "layer_to_place_on" (inside "create_object") [.token],
   .mk "set_gaia_object_only" (inside "create_object") [],
   .mk "set_place_for_every_player" (inside "create_object") [],
   .mk "place_on_specific_land_id" (inside "create_object") [.number],
   .mk "min_distance_to_players" (inside "create_object") [.number],
   .mk "max_distance_to_players" (inside "create_object") [.number],
   .mk "max_distance_to_other_zones" (inside "create_object") [.number],
   .mk "min_distance_group_placement" (inside "create_object") [.number],
   .mk "temp_min_distance_group_placement" (inside "create_object") [.number],
   .mk "resource_delta" (inside "create_object") [.number],
   .mk "avoid_forest_zone" (inside "create_object") [.number],
   .mk "place_on_forest_zone" (inside "create_object") [],
   .mk "avoid_cliff_zone" (inside "create_object") [.number],
   .mk "actor_area" (inside "create_object") [.number],
   .mk "actor_area_radius" (inside "create_object") [.number],
   .mk "actor_area_to_place_in" (inside "create_object") [.number],
   .mk "avoid_actor_area" (inside "create_object") [.number],
   .mk "avoid_all_actor_areas" (inside "create_object") [],
   .mk "force_placement" (inside "create_object") [],
   .mk "find_closest" (inside "create_object") [],
   .mk "second_object" (inside "create_object") [.token]]

def connectionEntries : List Entry :=
  [.mk "create_connect_all_players_land" (command "<CONNECTION_GENERATION>") [],
   .mk "create_connect_teams_lands" (command "<CONNECTION_GENERATION>") [],
   .mk "create_connect_same_land_zones" (command "<CONNECTION_GENERATION>") [],
   .mk "create_connect_all_lands" (command "<CONNECTION_GENERATION>") [],
   .mk "create_connect_to_nonplayer_land" (command "<CONNECTION_GENERATION>") [],
   .mk "replace_terrain" inConnection [.token, .token],
   .mk "terrain_cost" inConnection [.token, .number],
   .mk "terrain_size" inConnection [.token, .number, .number],
   .mk "default_terrain_replacement" inConnection [.token]]

def elevationEntries : List Entry :=
  [.mk "create_elevation" (command "<ELEVATION_GENERATION>") [.number],
   .mk "spacing" (inside "create_elevation") [.number],
   .mk "enable_balanced_elevation" (inside "create_elevation") []]

def entries : List Entry :=
  flowEntries ++ sectionEntries ++ setupEntries ++ landEntries ++ cliffEntries ++ terrainEntries
    ++ objectEntries ++ connectionEntries ++ elevationEntries

def names : List Text := entries.map Entry.name

def find? (name : Text) : Option Entry := entries.find? (·.name == name)

def contains (name : Text) : Bool := (find? name).isSome

/-- Whether a word has the shape of a section mark, known or not. -/
def isSectionShaped (t : Text) : Bool := t.startsWith "<" && t.endsWith ">"

end MapScript.Catalog
